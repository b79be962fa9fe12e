import BTRx.Base.Blocks
import BTRx.Base.Transition
import BTRx.ObjStore.Access

/-! # When the cache is transparent

`Coherent` says that every recorded index leads to a live object of its own position and
that the buffer of this object would be read like the file. A step keeps it unless it
hits one of several entries or evicts one of several: both move objects in the deque and
leave the recorded indices where they were.
-/
namespace BTRx
open Memory ByteSet Transition

/-- A call of one of the two public operations. -/
inductive StoreCall
  | add (p : ℕ) (piece : List Cell)
  | get (p : ℕ)
  deriving DecidableEq

def StoreCall.pcno : StoreCall → ℕ
  | add p _ => p
  | get p => p

/-- The return value of a call, and for `get_piece` the buffer it filled. -/
def ObjStore.call (s : ObjStore) : StoreCall → Except Fault ((ℕ × List Cell) × ObjStore)
  | .add p piece => do
    let (r,s) ← s.addPiece p piece
    return ((r,[]),s)
  | .get p => do
    let (r,buf,s) ← s.getPiece p
    return ((r,buf),s)

/-- What a call can have done: nothing, a read of a held piece, or a write of a new one. -/
theorem ObjStore.call_cases {s s' : ObjStore} {x : StoreCall} {r : ℕ × List Cell} (h : s.call x = .ok (r,s')) :
    s' = s ∧ (∀ p piece, x = .add p piece → bitAt s.bfield.bfield p = true) ∨
    (∃ p buf cache, x = .get p ∧ p < 8 * s.bfield.bfield.length ∧ bitAt s.bfield.bfield p = true ∧
      s.cache.get p = .ok (buf,cache) ∧ s' = { s with cache }) ∨
    ∃ p piece cache, x = .add p piece ∧ p < 8 * s.bfield.bfield.length ∧
      bitAt s.bfield.bfield p = false ∧ s.cache.put p piece = .ok cache ∧
      s' = { s with cache, bfield := ⟨setAt s.bfield.bfield p⟩ } := by
  cases x with
  | add p piece =>
    obtain ⟨⟨k,t⟩,hadd,h⟩ := Outcome.bind_eq_ok.mp h
    cases h
    obtain ⟨q,hq,hlt,hcases⟩ := ObjStore.addPiece_eq_ok hadd
    obtain rfl : p = q := by exact_mod_cast hq
    rcases hcases with ⟨hbit,_,rfl⟩ | ⟨hbit,_,cache,hput,rfl⟩
    · refine Or.inl ⟨rfl,?_⟩
      rintro _ _ ⟨⟩
      exact hbit
    · exact Or.inr (Or.inr ⟨p,piece,cache,rfl,hlt,hbit,hput,rfl⟩)
  | get p =>
    obtain ⟨⟨k,buf,t⟩,hget,h⟩ := Outcome.bind_eq_ok.mp h
    cases h
    obtain ⟨q,hq,hlt,hcases⟩ := ObjStore.getPiece_eq_ok hget
    obtain rfl : p = q := by exact_mod_cast hq
    rcases hcases with ⟨_,_,_,rfl⟩ | ⟨hbit,_,cache,hc,rfl⟩
    · exact Or.inl ⟨rfl,nofun⟩
    · exact Or.inr (Or.inl ⟨p,_,cache,rfl,hlt,hbit,hc,rfl⟩)

/-- What the cache-miss path delivers for a piece. -/
def ObjStore.missContent (s : ObjStore) (p : ℕ) : List Cell :=
  strncpy s.pcsz (s.cache.file.region (p * s.pcsz) s.pcsz)

/-- The deque stays in place: a hit on the only entry, or a miss that leaves all others
where they are. -/
def Cache.AccessSafe (c : Cache) (pos : ℤ) : Prop :=
  (pos ∈ c.cmap → c.cvec.length = 1) ∧ (pos ∉ c.cmap → c.cvec.length ≠ c.maxsz ∨ c.maxsz ≤ 1)

/-- The condition on a call in a state. A stored buffer has to end its string inside. -/
def ObjStore.CallSafe (s : ObjStore) : StoreCall → Prop
  | .add p piece => bitAt s.bfield.bfield p = false →
    s.cache.AccessSafe (s.cache.getPos p) ∧ some 0 ∈ piece.take s.pcsz
  | .get p => bitAt s.bfield.bfield p = true → s.cache.AccessSafe (s.cache.getPos p)

instance (c : Cache) (pos : ℤ) : Decidable (c.AccessSafe pos) :=
  inferInstanceAs (Decidable (_ ∧ _))

instance (s : ObjStore) : (x : StoreCall) → Decidable (s.CallSafe x)
  | .add p piece => inferInstanceAs (Decidable (bitAt s.bfield.bfield p = false →
      s.cache.AccessSafe (s.cache.getPos p) ∧ some 0 ∈ piece.take s.pcsz))
  | .get p => inferInstanceAs (Decidable (bitAt s.bfield.bfield p = true →
      s.cache.AccessSafe (s.cache.getPos p)))

/-- Every `get_piece` of the history that returned 1 delivered what a miss delivers. -/
def Transparent (hist : List (ObjStore × StoreCall × ℕ × List Cell)) : Prop :=
  ∀ s p buf, (s,StoreCall.get p,1,buf) ∈ hist → buf = s.missContent p

/-! ## The cache alone -/

structure Cache.Coherent (c : Cache) : Prop where
  addr : ∀ a ∈ c.cvec, a < c.heap.length
  entry : ∀ pos idx, c.cmap.lookup pos = some idx → ∃ a acc, c.cvec[idx]? = some a ∧
    c.heap[a]? = some (some acc) ∧ acc.pos = pos ∧
    strncpy c.pcsz acc.buf = strncpy c.pcsz (c.file.region pos.toNat c.pcsz)

/-- With one entry every recorded position is the position of that entry. -/
theorem Cache.Coherent.single {c : Cache} (hc : c.Coherent) {a : ℕ} (hvec : c.cvec = [a])
    {acc : Access} (hacc : c.heap[a]? = some (some acc)) {q : ℤ} {idx : ℕ}
    (h : c.cmap.lookup q = some idx) : q = acc.pos := by
  obtain ⟨b,acc',hb,hacc',hpos,_⟩ := hc.entry q idx h
  have hmem : b ∈ c.cvec := List.mem_of_getElem? hb
  rw [hvec,List.mem_singleton] at hmem
  subst hmem
  rw [hacc] at hacc'
  cases hacc'
  exact hpos.symm

theorem Cache.singleton_of_length {c : Cache} {front : ℕ} {rest : List ℕ} (hv : c.cvec = front :: rest)
    (h : c.cvec.length ≤ 1) : c.cvec = [front] := by
  rw [hv,List.length_cons] at h
  rw [hv,List.length_eq_zero_iff.mp (by omega : rest.length = 0)]

/-- A safe `update_cache` keeps the cache coherent and adds no position but its own. -/
theorem Cache.Coherent.updateCache {c c' : Cache} (hc : c.Coherent) {pos : ℤ} {buf : List Cell}
    (hbuf : strncpy c.pcsz buf = strncpy c.pcsz (c.file.region pos.toNat c.pcsz))
    (hsafe : c.AccessSafe pos) (h : c.updateCache pos buf = .ok c') :
    c'.Coherent ∧ ∀ q, q ∈ c'.cmap → q = pos ∨ q ∈ c.cmap := by
  have hx := Cache.updateCache_eq_ok.mp h
  refine ⟨⟨hx.addressed hc.addr,fun q idx hq => ?_⟩,fun q => hx.mem_or⟩
  cases hx with
  | @hit i front rest hl hv hidx =>
    have hone := hsafe.1 (AList.lookup_isSome.mp (by rw [hl]; rfl))
    have hvec := Cache.singleton_of_length hv hone.le
    obtain rfl : i = 0 := by omega
    obtain ⟨a,acc,ha,hacc,hpos,hread⟩ := hc.entry pos 0 hl
    obtain rfl : front = a := by simpa [hvec] using ha
    simp only [Cache.onHit,hvec,List.length_singleton,Nat.sub_self,
      PosMap.lookup_insertNew (AList.lookup_erase pos c.cmap)] at hq ⊢
    by_cases hqp : q = pos
    · subst hqp
      rw [if_pos rfl] at hq
      cases hq
      exact ⟨front,acc,rfl,hacc,hpos,hread⟩
    · rw [if_neg hqp,AList.lookup_erase_ne hqp] at hq
      exact absurd ((hc.single hvec hacc hq).trans hpos) hqp
  | room hl hne =>
    simp only [Cache.onRoom,Cache.allocate,PosMap.lookup_insertNew hl] at hq ⊢
    by_cases hqp : q = pos
    · subst hqp
      rw [if_pos rfl] at hq
      cases hq
      exact ⟨c.heap.length,⟨q,buf⟩,List.getElem?_concat_length,List.getElem?_concat_length,rfl,hbuf⟩
    · rw [if_neg hqp] at hq
      obtain ⟨a,acc,ha,hacc,hpos,hread⟩ := hc.entry q idx hq
      refine ⟨a,acc,?_,?_,hpos,hread⟩
      · rw [List.getElem?_append_left (List.getElem?_eq_some_iff.mp ha).1,ha]
      · rw [List.getElem?_append_left (List.getElem?_eq_some_iff.mp hacc).1,hacc]
  | @full front rest old hl hfull hv hold =>
    -- only a deque of one can be evicted from here
    have hone := (hsafe.2 (AList.lookup_eq_none.mp hl)).resolve_left (not_not.mpr hfull)
    have hvec := Cache.singleton_of_length hv (hfull.le.trans hone)
    have hlt : front < c.heap.length := hc.addr front (by rw [hvec]; exact List.mem_singleton_self front)
    have hacc : c.heap[front]? = some (some old) := by
      rwa [Cache.allocate,List.getElem?_append_left hlt] at hold
    have hgone := Cache.lookup_erase_of_none hl old.pos
    simp only [Cache.onFull,Cache.allocate,hvec,List.tail_cons,List.nil_append,List.length_nil,
      PosMap.lookup_insertNew hgone] at hq ⊢
    by_cases hqp : q = pos
    · subst hqp
      rw [if_pos rfl] at hq
      cases hq
      refine ⟨c.heap.length,⟨q,buf⟩,rfl,?_,rfl,hbuf⟩
      rw [List.getElem?_set_ne (by omega),List.getElem?_concat_length]
    · rw [if_neg hqp] at hq
      by_cases hqo : q = old.pos
      · subst hqo
        cases (AList.lookup_erase old.pos c.cmap).symm.trans hq
      · rw [AList.lookup_erase_ne hqo] at hq
        exact absurd (hc.single hvec hacc hq) hqo

/-! ## The store -/

/-- The configuration a store is built from, in a file that is long enough. -/
structure ObjStore.Shape (s : ObjStore) : Prop where
  pcsz : s.cache.pcsz = s.pcsz
  pcsz_pos : 0 < s.pcsz
  starts : ∀ p, p < s.npcs → p * s.pcsz < s.fsz
  fsz : s.fsz < 2 ^ 31
  file : s.fsz ≤ s.cache.file.data.length

theorem ObjStore.Shape.getPos {s : ObjStore} (hs : s.Shape) {p : ℕ} (hp : p < s.npcs) :
    s.cache.getPos p = (p * s.pcsz : ℕ) := by
  have h1 := hs.starts p hp
  have h2 := hs.fsz
  have hcomm : ((s.cache.pcsz : ℤ) * p) = ((p * s.pcsz : ℕ) : ℤ) := by
    rw [hs.pcsz]
    push_cast
    ring
  rw [Cache.getPos,hcomm,toInt_of_lt (by omega) (by omega)]

theorem ObjStore.Shape.cache {s : ObjStore} (hs : s.Shape) {cache : Cache} (bfield : Bfield)
    (hsame : s.cache.SameShape cache) (hfile : s.cache.file.data.length ≤ cache.file.data.length) :
    ObjStore.Shape { s with cache, bfield } :=
  ⟨hsame.1.trans hs.pcsz,hs.pcsz_pos,hs.starts,hs.fsz,hs.file.trans hfile⟩

theorem ObjStore.Shape.put {s : ObjStore} (hs : s.Shape) {pcno : ℤ} {piece : List Cell} {cache : Cache}
    (bfield : Bfield) (h : s.cache.put pcno piece = .ok cache) : ObjStore.Shape { s with cache, bfield } := by
  have hsize : 0 < s.cache.pcsz := by
    rw [hs.pcsz]
    exact hs.pcsz_pos
  obtain ⟨hsame,hfile⟩ := Cache.put_frame hsize h
  exact hs.cache bfield hsame hfile

theorem ObjStore.Shape.get {s : ObjStore} (hs : s.Shape) {pcno : ℤ} {buf : List Cell} {cache : Cache}
    (h : s.cache.get pcno = .ok (buf,cache)) : ObjStore.Shape { s with cache } := by
  obtain ⟨hsame,hfile⟩ := Cache.get_frame h
  exact hs.cache s.bfield hsame (by rw [hfile])

structure ObjStore.Coherent (s : ObjStore) : Prop where
  shape : s.Shape
  cache : s.cache.Coherent
  held : ∀ q, q ∈ s.cache.cmap → ∃ p : ℕ, p < s.npcs ∧ q = (p * s.pcsz : ℕ) ∧
    bitAt s.bfield.bfield p = true

/-- Two pieces that start apart do not overlap. -/
theorem piece_disjoint {p q pcsz : ℕ} (h : p ≠ q) : q * pcsz + pcsz ≤ p * pcsz ∨
    p * pcsz + pcsz ≤ q * pcsz := by
  rcases Nat.lt_or_gt_of_ne h with h | h
  · exact Or.inr (Blocks.end_le (Nat.zero_le pcsz) h)
  · exact Or.inl (Blocks.end_le (Nat.zero_le pcsz) h)

/-- Reading moves the descriptor and nothing else. -/
theorem Cache.Coherent.of_data {c : Cache} (hc : c.Coherent) {f : File} (h : f.data = c.file.data) :
    Cache.Coherent { c with file := f } := by
  refine ⟨hc.addr,?_⟩
  intro pos idx hidx
  obtain ⟨a,acc,ha,hacc,hpos,hread⟩ := hc.entry pos idx hidx
  refine ⟨a,acc,ha,hacc,hpos,?_⟩
  rw [hread]
  simp only [File.region,h]

theorem Cache.Coherent.get {c c' : Cache} (hc : c.Coherent) {pcno : ℤ} {n : ℕ} {buf : List Cell}
    (hpos : c.getPos pcno = n) (hsafe : c.AccessSafe n) (h : c.get pcno = .ok (buf,c')) :
    c'.Coherent ∧ (∀ q, q ∈ c'.cmap → q = n ∨ q ∈ c.cmap) ∧
      buf = strncpy c.pcsz (c.file.region n c.pcsz) := by
  unfold Cache.get at h
  rw [hpos] at h
  cases hl : c.cmap.lookup (n : ℤ) with
  | some idx =>
    simp only [hl] at h
    obtain ⟨a,ha,h⟩ := Outcome.bind_eq_ok.mp h
    obtain ⟨acc,hd,h⟩ := Outcome.bind_eq_ok.mp h
    obtain ⟨d,hup,h⟩ := Outcome.bind_eq_ok.mp h
    cases h
    obtain ⟨b,acc',hb,hacc',_,hread⟩ := hc.entry _ idx hl
    have hab : a = b := by
      rw [Cache.at_eq_ok,hb] at ha
      exact (Option.some.inj ha).symm
    subst hab
    have hacc : acc = acc' := by
      rw [Cache.deref_eq_ok,hacc'] at hd
      exact (Option.some.inj (Option.some.inj hd)).symm
    subst hacc
    obtain ⟨hcoh,hkeys⟩ := hc.updateCache hread hsafe hup
    exact ⟨hcoh,hkeys,hread⟩
  | none =>
    simp only [hl,File.lseek_natCast,Option.getD_some,File.read] at h
    obtain ⟨d,hup,h⟩ := Outcome.bind_eq_ok.mp h
    cases h
    have hread := hc.of_data (f := { c.file with off := n +
      (File.region { c.file with off := n } n c.pcsz).length }) rfl
    obtain ⟨hcoh,hkeys⟩ := hread.updateCache (strncpy_window _) hsafe hup
    exact ⟨hcoh,hkeys,strncpy_window _⟩

/-- A store at a new position, away from everything that is cached. -/
theorem Cache.Coherent.put {c c' : Cache} (hc : c.Coherent) {pcno : ℤ} {n : ℕ} {piece : List Cell}
    (hpos : c.getPos pcno = n) (hsafe : c.AccessSafe n) (hsize : 0 < c.pcsz)
    (hlen : n ≤ c.file.data.length)
    (haway : ∀ q, q ∈ c.cmap → n + c.pcsz ≤ q.toNat ∨ q.toNat + c.pcsz ≤ n)
    (hzero : some 0 ∈ piece.take c.pcsz) (h : c.put pcno piece = .ok c') :
    c'.Coherent ∧ ∀ q, q ∈ c'.cmap → q = n ∨ q ∈ c.cmap := by
  rw [Cache.put_natCast hpos] at h
  have hne := Cache.window_ne_nil hsize piece
  have hwrite : Cache.Coherent { c with file := c.written n piece } := by
    refine ⟨hc.addr,?_⟩
    intro q idx hidx
    obtain ⟨a,acc,ha,hacc,hq,hread⟩ := hc.entry q idx hidx
    refine ⟨a,acc,ha,hacc,hq,?_⟩
    have hmem : q ∈ c.cmap := AList.lookup_isSome.mp (by rw [hidx]; rfl)
    rw [hread]
    simp only [File.region,Cache.written_data]
    rw [File.region_overwrite_of_disjoint hne]
    rw [window_length]
    rcases haway q hmem with h | h
    · exact Or.inl h
    · exact Or.inr ⟨h,by omega⟩
  have hbuf : strncpy c.pcsz (snprintf c.pcsz piece) =
      strncpy c.pcsz ((c.written n piece).region (n : ℤ).toNat c.pcsz) := by
    have hself := @File.region_overwrite_self c.file.data _ n hne
    rw [window_length] at hself
    simp only [File.region,Cache.written_data,Int.toNat_natCast,hself]
    rw [strncpy_snprintf hzero,strncpy_window]
  exact hwrite.updateCache hbuf hsafe h

theorem ObjStore.Coherent.getPiece {s s' : ObjStore} (hs : s.Coherent) {p r : ℕ} {buf : List Cell}
    (hp : p < s.npcs) (hsafe : s.CallSafe (.get p)) (h : s.getPiece p = .ok (r,buf,s')) :
    s'.Coherent ∧ s'.npcs = s.npcs ∧ (r = 1 → buf = s.missContent p) := by
  obtain ⟨q,hq,_,hcases⟩ := ObjStore.getPiece_eq_ok h
  obtain rfl : p = q := by exact_mod_cast hq
  rcases hcases with ⟨_,rfl,_,rfl⟩ | ⟨hbit,_,cache,hget,rfl⟩
  · exact ⟨hs,rfl,fun h => absurd h (by decide)⟩
  · have hpos := hs.shape.getPos hp
    have hacc := hsafe hbit
    rw [hpos] at hacc
    obtain ⟨hcoh,hkeys,hbuf⟩ := hs.cache.get hpos hacc hget
    refine ⟨⟨hs.shape.get hget,hcoh,?_⟩,rfl,?_⟩
    · intro q hq
      rcases hkeys q hq with rfl | hq
      · exact ⟨p,hp,rfl,hbit⟩
      · exact hs.held q hq
    · intro _
      rw [hbuf,ObjStore.missContent,hs.shape.pcsz]

theorem ObjStore.Coherent.addPiece {s s' : ObjStore} (hs : s.Coherent) {p r : ℕ} {piece : List Cell}
    (hp : p < s.npcs) (hsafe : s.CallSafe (.add p piece)) (h : s.addPiece p piece = .ok (r,s')) :
    s'.Coherent ∧ s'.npcs = s.npcs := by
  obtain ⟨q,hq,hbound,hcases⟩ := ObjStore.addPiece_eq_ok h
  obtain rfl : p = q := by exact_mod_cast hq
  rcases hcases with ⟨_,_,rfl⟩ | ⟨hbit,_,cache,hput,rfl⟩
  · exact ⟨hs,rfl⟩
  · obtain ⟨hacc,hzero⟩ := hsafe hbit
    have hpos := hs.shape.getPos hp
    have hstart := hs.shape.starts p hp
    have hfile := hs.shape.file
    have hpc := hs.shape.pcsz
    rw [hpos] at hacc
    have haway : ∀ q, q ∈ s.cache.cmap → p * s.pcsz + s.cache.pcsz ≤ q.toNat ∨
        q.toNat + s.cache.pcsz ≤ p * s.pcsz := by
      intro q hq
      obtain ⟨k,_,rfl,hk⟩ := hs.held q hq
      have hne : k ≠ p := by
        rintro rfl
        rw [hbit] at hk
        cases hk
      rw [hpc,Int.toNat_natCast]
      exact piece_disjoint hne
    obtain ⟨hcoh,hkeys⟩ := hs.cache.put hpos hacc (by rw [hpc]; exact hs.shape.pcsz_pos)
      (by omega) haway (by rwa [hpc]) hput
    refine ⟨⟨hs.shape.put _ hput,hcoh,?_⟩,rfl⟩
    intro q hq
    rcases hkeys q hq with rfl | hq
    · exact ⟨p,hp,rfl,by rw [bitAt_setAt hbound]; simp⟩
    · obtain ⟨k,hk,rfl,hbitk⟩ := hs.held q hq
      exact ⟨k,hk,rfl,bitAt_setAt_of_bitAt hbound hbitk⟩

/-- One call keeps the store coherent, and a `get_piece` in it delivers what a miss would. -/
theorem ObjStore.Coherent.call {s s' : ObjStore} (hs : s.Coherent) {x : StoreCall} {r : ℕ × List Cell}
    (hp : x.pcno < s.npcs) (hsafe : s.CallSafe x) (h : s.call x = .ok (r,s')) :
    s'.Coherent ∧ s'.npcs = s.npcs ∧ ∀ p, x = .get p → r.1 = 1 → r.2 = s.missContent p := by
  cases x with
  | add p piece =>
    obtain ⟨⟨k,t⟩,hadd,h⟩ := Outcome.bind_eq_ok.mp h
    cases h
    obtain ⟨hcoh,hnp⟩ := hs.addPiece hp hsafe hadd
    exact ⟨hcoh,hnp,nofun⟩
  | get p =>
    obtain ⟨⟨k,buf,t⟩,hget,h⟩ := Outcome.bind_eq_ok.mp h
    cases h
    obtain ⟨hcoh,hnp,hbuf⟩ := hs.getPiece hp hsafe hget
    refine ⟨hcoh,hnp,?_⟩
    intro q hq
    cases hq
    exact hbuf

theorem npcsOf_starts {fsz pcsz p : ℕ} (hpos : 0 < pcsz) (hp : p < npcsOf fsz pcsz) :
    p * pcsz < fsz := by
  have hdiv := Nat.div_add_mod fsz pcsz
  have hmul : p * pcsz + pcsz = pcsz * (p + 1) := by ring
  unfold npcsOf at hp
  split at hp
  · have := Nat.mul_le_mul_left pcsz (show p ≤ fsz / pcsz by omega)
    have hcomm : p * pcsz = pcsz * p := Nat.mul_comm _ _
    omega
  · have := Nat.mul_le_mul_left pcsz (show p + 1 ≤ fsz / pcsz by omega)
    omega

/-- A store as `Node` and `bfield_init` set it up, on a file of `fsz` bytes. -/
theorem ObjStore.coherent_init {fsz pcsz : ℕ} {s : ObjStore} (hpos : 0 < pcsz) (hfsz : fsz < 2 ^ 31)
    (hs : ObjStore.new fsz pcsz (npcsOf fsz pcsz) = .ok s) (hasfile : Bool) {disk : List Cell}
    (hdisk : hasfile = true → disk.length = fsz) :
    (s.bfieldInit hasfile disk).Coherent ∧ (s.bfieldInit hasfile disk).npcs = npcsOf fsz pcsz := by
  obtain ⟨_,rfl⟩ := ObjStore.new_eq_ok.mp hs
  refine ⟨⟨⟨rfl,hpos,fun p hp => npcsOf_starts hpos hp,hfsz,?_⟩,⟨nofun,?_⟩,?_⟩,rfl⟩
  · cases hasfile with
    | false => simp [ObjStore.bfieldInit]
    | true => simpa [ObjStore.bfieldInit] using (hdisk rfl).ge
  · intro pos idx h
    exact nomatch (AList.lookup_empty pos).symm.trans h
  · intro q hq
    exact absurd hq (AList.notMem_empty q)

/-- In a run whose calls all keep the deque in place and store terminated buffers, every
successful `get_piece` delivers what the cache-miss path would deliver at that moment. -/
theorem cache_transparent {fsz pcsz : ℕ} {s : ObjStore} (hpos : 0 < pcsz) (hfsz : fsz < 2 ^ 31)
    (hnew : ObjStore.new fsz pcsz (npcsOf fsz pcsz) = .ok s) (hasfile : Bool) {disk : List Cell}
    (hdisk : hasfile = true → disk.length = fsz) {hist : List (ObjStore × StoreCall × ℕ × List Cell)} {t : ObjStore}
    (run : Run (ExecStep ObjStore.call) (s.bfieldInit hasfile disk) hist t)
    (hpcno : ∀ e ∈ hist, e.2.1.pcno < npcsOf fsz pcsz) (hsafe : ∀ e ∈ hist, e.1.CallSafe e.2.1) :
    Transparent hist := by
  obtain ⟨hcoh,hnp⟩ := ObjStore.coherent_init hpos hfsz hnew hasfile hdisk
  have hall : (t.Coherent ∧ t.npcs = npcsOf fsz pcsz) ∧ Transparent hist := by
    induction run with
    | refl => exact ⟨⟨hcoh,hnp⟩,nofun⟩
    | @tail hist t u l run last ih =>
      obtain ⟨⟨htcoh,htnp⟩,htrans⟩ := ih (fun e he => hpcno e (List.mem_cons_of_mem _ he))
        (fun e he => hsafe e (List.mem_cons_of_mem _ he))
      have hp := hpcno _ List.mem_cons_self
      rw [← htnp] at hp
      obtain ⟨hucoh,hunp,hbuf⟩ := htcoh.call hp (hsafe _ List.mem_cons_self) last
      refine ⟨⟨hucoh,hunp.trans htnp⟩,?_⟩
      intro s' p buf hmem
      rcases List.mem_cons.mp hmem with heq | hmem
      · cases heq
        exact hbuf p rfl rfl
      · exact htrans s' p buf hmem
  exact hall.2

/-- What can be compared of one call of a history: its result, what a miss would have
delivered, and whether it was safe. -/
structure Observation where
  call : StoreCall
  ret : ℕ
  buf : List Cell
  miss : List Cell
  safe : Bool
  deriving DecidableEq

def observe (e : ObjStore × StoreCall × ℕ × List Cell) : Observation :=
  ⟨e.2.1,e.2.2.1,e.2.2.2,e.1.missContent e.2.1.pcno,decide (e.1.CallSafe e.2.1)⟩

/-- The calls in order on a new store over a file, the last one first. -/
def observeCalls (fsz pcsz : ℕ) (hasfile : Bool) (disk : List Cell) (calls : List StoreCall) :
    Except Fault (List Observation) := do
  let s ← ObjStore.new fsz pcsz (npcsOf fsz pcsz)
  let (hist,_) ← execAll ObjStore.call calls [] (s.bfieldInit hasfile disk)
  return hist.map observe

theorem run_of_observeCalls {fsz pcsz : ℕ} {hasfile : Bool} {disk : List Cell}
    {calls : List StoreCall} {obs : List Observation}
    (h : observeCalls fsz pcsz hasfile disk calls = .ok obs) :
    ∃ s hist t, ObjStore.new fsz pcsz (npcsOf fsz pcsz) = .ok s ∧
      Run (ExecStep ObjStore.call) (s.bfieldInit hasfile disk) hist t ∧ hist.map observe = obs := by
  obtain ⟨s,hs,h⟩ := Outcome.bind_eq_ok.mp h
  obtain ⟨⟨hist,t⟩,hrun,h⟩ := Outcome.bind_eq_ok.mp h
  cases h
  exact ⟨s,hist,t,hs,run_of_execAll Run.refl hrun,rfl⟩

/-- A store that adds, reads and adds, all within the condition. -/
theorem cache_transparent_add_get : ∃ s hist t, ObjStore.new 4 2 (npcsOf 4 2) = .ok s ∧
    Run (ExecStep ObjStore.call) (s.bfieldInit false []) hist t ∧
    hist.map (fun e => (observe e).call) =
      [.add 1 [some 99,some 0],.get 0,.add 0 [some 97,some 0]] ∧ Transparent hist := by
  have h : observeCalls 4 2 false [] [.add 0 [some 97,some 0],.get 0,.add 1 [some 99,some 0]] =
      .ok [⟨.add 1 [some 99,some 0],1,[],[some 0,some 0],true⟩,
        ⟨.get 0,1,[some 97,some 0],[some 97,some 0],true⟩,
        ⟨.add 0 [some 97,some 0],1,[],[some 0,some 0],true⟩] := by decide +kernel
  obtain ⟨s,hist,t,hs,run,hobs⟩ := run_of_observeCalls h
  have hall : ∀ o ∈ hist.map observe, o.call.pcno < npcsOf 4 2 ∧ o.safe = true := by
    rw [hobs]
    decide
  refine ⟨s,hist,t,hs,run,?_,?_⟩
  · have hcalls := congrArg (List.map Observation.call) hobs
    rwa [List.map_map] at hcalls
  · refine cache_transparent (by decide) (by decide) hs false nofun run ?_ ?_
    · exact fun e he => (hall _ (List.mem_map_of_mem he)).1
    · exact fun e he => of_decide_eq_true (hall _ (List.mem_map_of_mem he)).2

/-- Two hits in a deque of two: the second `get_piece(1)` delivers piece 0. -/
theorem cache_not_transparent : ∃ s hist t, ObjStore.new 4 2 (npcsOf 4 2) = .ok s ∧
    Run (ExecStep ObjStore.call) (s.bfieldInit true [some 97,some 98,some 99,some 100]) hist t ∧
    (∀ e ∈ hist, e.2.1.pcno < npcsOf 4 2) ∧ ¬ Transparent hist := by
  have h : observeCalls 4 2 true [some 97,some 98,some 99,some 100]
      [.get 0,.get 1,.get 0,.get 1] =
      .ok [⟨.get 1,1,[some 97,some 98],[some 99,some 100],false⟩,
        ⟨.get 0,1,[some 97,some 98],[some 97,some 98],false⟩,
        ⟨.get 1,1,[some 99,some 100],[some 99,some 100],true⟩,
        ⟨.get 0,1,[some 97,some 98],[some 97,some 98],true⟩] := by decide +kernel
  obtain ⟨s,hist,t,hs,run,hobs⟩ := run_of_observeCalls h
  have hall : ∀ o ∈ hist.map observe, o.call.pcno < npcsOf 4 2 := by
    rw [hobs]
    decide
  refine ⟨s,hist,t,hs,run,fun e he => hall _ (List.mem_map_of_mem he),?_⟩
  intro htrans
  have hmem : ⟨.get 1,1,[some 97,some 98],[some 99,some 100],false⟩ ∈ hist.map observe := by
    rw [hobs]
    exact List.mem_cons_self
  obtain ⟨⟨s',x,r,buf⟩,he,hobserve⟩ := List.mem_map.mp hmem
  unfold observe at hobserve
  simp only [Observation.mk.injEq] at hobserve
  obtain ⟨rfl,rfl,rfl,hmiss,_⟩ := hobserve
  have hbuf := htrans s' 1 _ he
  rw [StoreCall.pcno] at hmiss
  rw [hmiss] at hbuf
  exact absurd hbuf (by decide)

end BTRx
