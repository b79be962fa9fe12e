import BTRx.Handler.Turn
import BTRx.ObjStore.Transparency

/-! # Which pieces are announced

A piece is announced when the cache has its number among its keys, and the keys are file
positions. Numbers and positions of the held pieces agree where no piece but the first is
held or where a piece is one byte, and only as long as nothing has been evicted.
-/
namespace BTRx
open Memory ByteSet Transition

namespace ObjStore
variable {s s' : ObjStore} {x : StoreCall} {r : ℕ × List Cell}

/-- `exists` and the bitfield agree on every piece. -/
def Agree (s : ObjStore) : Prop := ∀ p, p < s.npcs → s.bfield.exists p = .ok (s.exists (UInt32.ofNat p))

/-- What the node announces, to whichever peer, it holds. -/
structure Announces (s : ObjStore) : Prop where
  agree : s.Agree
  haves : ∀ bfieldPeer, ∀ pkt ∈ Session.haves s bfieldPeer, ∃ p, p < s.npcs ∧
    pkt = Session.havePkt (UInt32.ofNat p) ∧ s.bfield.exists p = .ok true

/-- In all states of a run the announcements are sound, and no call has changed those of
another piece. -/
def AnnouncesSoFar : List (ObjStore × StoreCall × ℕ × List Cell) → ObjStore → Prop
  | [],t => t.Announces
  | (s,x,_) :: hist,t => AnnouncesSoFar hist s ∧ t.Announces ∧
    ∀ q, q < s.npcs → q ≠ x.pcno → t.exists (UInt32.ofNat q) = s.exists (UInt32.ofNat q)

/-- A new piece may be added whose position is its number, to a cache that is not full. -/
def Announceable (s : ObjStore) : StoreCall → Prop
  | .add p _ => bitAt s.bfield.bfield p = false → (p = 0 ∨ s.pcsz = 1) ∧
    s.cache.cvec.length ≠ s.cache.maxsz
  | .get _ => True

instance (s : ObjStore) : (x : StoreCall) → Decidable (s.Announceable x)
  | .add p _ => inferInstanceAs (Decidable (bitAt s.bfield.bfield p = false →
      (p = 0 ∨ s.pcsz = 1) ∧ s.cache.cvec.length ≠ s.cache.maxsz))
  | .get _ => inferInstanceAs (Decidable True)

/-- The keys of the cache are the positions of all held pieces. -/
structure Uncut (s : ObjStore) : Prop where
  shape : s.Shape
  bits : s.npcs ≤ 8 * s.bfield.bfield.length
  owned : s.cache.Owned
  keys : ∀ q, q ∈ s.cache.cmap ↔
    ∃ p : ℕ, p < s.npcs ∧ bitAt s.bfield.bfield p = true ∧ q = (p * s.pcsz : ℕ)

theorem Shape.lt (h : s.Shape) {p : ℕ} (hp : p < s.npcs) : p < 2 ^ 31 := by
  have h1 := h.starts p hp
  have h2 := Nat.le_mul_of_pos_right p h.pcsz_pos
  have h3 := h.fsz
  omega

theorem Shape.toNat_ofNat (h : s.Shape) {p : ℕ} (hp : p < s.npcs) : (UInt32.ofNat p).toNat = p := by
  have := h.lt hp
  exact UInt32.toNat_ofNat_of_lt' (by unfold UInt32.size; omega)

/-- `exists` looks for a position under the number of the piece. -/
theorem Uncut.exists_iff (h : s.Uncut) (pcno : UInt32) : s.exists pcno = true ↔
    ∃ p, p < s.npcs ∧ bitAt s.bfield.bfield p = true ∧ toInt pcno.toNat = (p * s.pcsz : ℕ) := by
  rw [ObjStore.exists,Cache.exists,AList.lookup_isSome,h.keys]

theorem Uncut.agree_iff (h : s.Uncut) : s.Agree ↔
    s.pcsz = 1 ∨ ∀ p, p < s.npcs → bitAt s.bfield.bfield p = true → p = 0 := by
  have hone : ∀ p, p < s.npcs → (s.bfield.exists p = .ok (s.exists (UInt32.ofNat p)) ↔
      (bitAt s.bfield.bfield p = true ↔
        ∃ k, k < s.npcs ∧ bitAt s.bfield.bfield k = true ∧ p = k * s.pcsz)) := by
    intro p hp
    have hint : toInt (p : ℤ) = p := toInt_of_lt (by omega) (by exact_mod_cast h.shape.lt hp)
    rw [Bfield.exists_of_lt (lt_of_lt_of_le hp h.bits),Except.ok.injEq,Bool.eq_iff_iff,h.exists_iff,
      h.shape.toNat_ofNat hp,hint]
    simp only [Nat.cast_inj]
  constructor
  · intro hagree
    by_contra hno
    rw [not_or] at hno
    refine hno.2 fun p => ?_
    induction p using Nat.strong_induction_on with
    | _ p ih =>
      intro hp hbit
      obtain ⟨k,hk,hbitk,hpk⟩ := ((hone p hp).mp (hagree p hp)).mp hbit
      by_contra hp0
      have hk0 : k ≠ 0 := by
        rintro rfl
        exact hp0 (hpk.trans (Nat.zero_mul _))
      have hlt : k < p := by
        have hpcsz := h.shape.pcsz_pos
        calc k < k * 2 := by omega
          _ ≤ k * s.pcsz := Nat.mul_le_mul_left k (by omega)
          _ = p := hpk.symm
      exact hk0 (ih k hlt hk hbitk)
  · rintro (hpcsz | hzero) p hp
    · refine (hone p hp).mpr ⟨fun hbit => ⟨p,hp,hbit,by rw [hpcsz,Nat.mul_one]⟩,?_⟩
      rintro ⟨k,_,hbit,rfl⟩
      rwa [hpcsz,Nat.mul_one]
    · refine (hone p hp).mpr ⟨fun hbit => ?_,?_⟩
      · have h0 := hzero p hp hbit
        exact ⟨p,hp,hbit,by rw [h0,Nat.zero_mul]⟩
      · rintro ⟨k,hk,hbit,rfl⟩
        obtain rfl := hzero k hk hbit
        rwa [Nat.zero_mul]

theorem Uncut.announces (h : s.Uncut) (hagree : s.Agree) : s.Announces := by
  refine ⟨hagree,fun bfieldPeer pkt hpkt => ?_⟩
  obtain ⟨pcno,hpcno,rfl⟩ := List.mem_map.mp hpkt
  obtain ⟨k,hk,hbit,hpos⟩ := (h.exists_iff pcno).mp (List.mem_filter.mp hpcno).2
  have hint : toInt (pcno.toNat : ℤ) = pcno.toNat := by
    refine toInt_of_nonneg (by omega) ?_ (by omega)
    exact_mod_cast pcno.toNat_lt
  have hk' : pcno.toNat = k := by
    have hval : pcno.toNat = k * s.pcsz := by exact_mod_cast hint.symm.trans hpos
    rcases h.agree_iff.mp hagree with hpcsz | hzero
    · rw [hval,hpcsz,Nat.mul_one]
    · rw [hval,hzero k hk hbit,Nat.zero_mul]
  refine ⟨k,hk,?_,?_⟩
  · rw [← hk',UInt32.ofNat_toNat]
  · rw [Bfield.exists_of_lt (lt_of_lt_of_le hk h.bits),hbit]

/-! ## One call -/

theorem Uncut.missing (h : s.Uncut) {p : ℕ} (hbit : bitAt s.bfield.bfield p = false) :
    ((p * s.pcsz : ℕ) : ℤ) ∉ s.cache.cmap := by
  intro hmem
  obtain ⟨k,_,hbitk,hpos⟩ := (h.keys _).mp hmem
  have hk : p = k := Nat.eq_of_mul_eq_mul_right h.shape.pcsz_pos (by exact_mod_cast hpos)
  rw [hk,hbitk] at hbit
  cases hbit

/-- The access in a call of `add_piece` for a piece that is not held. -/
theorem Uncut.put_accessed (h : s.Uncut) {p : ℕ} (hp : p < s.npcs) {piece : List Cell} {cache : Cache}
    (hput : s.cache.put p piece = .ok cache) :
    Cache.Accessed { s.cache with file := s.cache.written (p * s.pcsz) piece } (p * s.pcsz : ℕ)
      (snprintf s.cache.pcsz piece) cache := by
  rw [Cache.put_natCast (h.shape.getPos hp)] at hput
  exact Cache.updateCache_eq_ok.mp hput

theorem Uncut.add (h : s.Uncut) {p : ℕ} (hp : p < s.npcs) {piece : List Cell} {cache : Cache}
    (hput : s.cache.put p piece = .ok cache) (hroom : s.cache.cvec.length ≠ s.cache.maxsz) :
    Uncut { s with cache, bfield := ⟨setAt s.bfield.bfield p⟩ } := by
  have hlt := lt_of_lt_of_le hp h.bits
  obtain ⟨howned,hkeys⟩ := (h.put_accessed hp hput).grow h.owned (Or.inr hroom)
  refine ⟨h.shape.put _ hput,by simpa using h.bits,howned,fun q => ?_⟩
  rw [hkeys,h.keys]
  simp only [bitAt_setAt hlt]
  constructor
  · rintro (rfl | ⟨k,hk,hbit,rfl⟩)
    · exact ⟨p,hp,by simp,rfl⟩
    · exact ⟨k,hk,by simp [hbit],rfl⟩
  · rintro ⟨k,hk,hbit,rfl⟩
    by_cases hkp : p = k
    · exact Or.inl (by rw [hkp])
    · exact Or.inr ⟨k,hk,by simpa [hkp] using hbit,rfl⟩

theorem Uncut.get (h : s.Uncut) {p : ℕ} (hp : p < s.npcs) (hbit : bitAt s.bfield.bfield p = true)
    {buf : List Cell} {cache : Cache} (hget : s.cache.get p = .ok (buf,cache)) :
    Uncut { s with cache } := by
  obtain ⟨file,store,_,_,hx⟩ := Cache.get_eq_ok hget
  rw [h.shape.getPos hp] at hx
  have hmem : ((p * s.pcsz : ℕ) : ℤ) ∈ s.cache.cmap := (h.keys _).mpr ⟨p,hp,hbit,rfl⟩
  obtain ⟨howned,hkeys⟩ := hx.grow h.owned (Or.inl hmem)
  refine ⟨h.shape.get hget,h.bits,howned,fun q => ?_⟩
  rw [hkeys,← h.keys]
  constructor
  · rintro (rfl | hq)
    · exact hmem
    · exact hq
  · exact Or.inr

/-- A call does not touch the bits of another piece. -/
theorem call_bits (h : s.call x = .ok (r,s')) {q : ℕ} (hne : q ≠ x.pcno) : s'.bfield.exists q = s.bfield.exists q := by
  rcases call_cases h with ⟨rfl,_⟩ | ⟨p,buf,cache,rfl,_,_,_,rfl⟩ | ⟨p,piece,cache,rfl,hp,_,_,rfl⟩
  · rfl
  · rfl
  · have hpq : p ≠ q := fun hpq => hne hpq.symm
    rw [Bfield.exists_natCast,Bfield.exists_natCast]
    simp [bitAt_setAt hp,hpq]

theorem call_npcs (h : s.call x = .ok (r,s')) : s'.npcs = s.npcs := by
  rcases call_cases h with ⟨rfl,_⟩ | ⟨p,buf,cache,_,_,_,_,rfl⟩ | ⟨p,piece,cache,_,_,_,_,rfl⟩ <;> rfl

/-- A sound call on a sound store. -/
theorem Uncut.step (h : s.Uncut) (hagree : s.Agree) (hp : x.pcno < s.npcs) (hok : s.Announceable x)
    (hx : s.call x = .ok (r,s')) : s'.Uncut ∧ s'.Agree := by
  rcases call_cases hx with ⟨rfl,_⟩ | ⟨p,buf,cache,rfl,_,hbit,hget,rfl⟩ | ⟨p,piece,cache,rfl,hlt,hbit,hput,rfl⟩
  · exact ⟨h,hagree⟩
  · have hnext := h.get hp hbit hget
    exact ⟨hnext,hnext.agree_iff.mpr (h.agree_iff.mp hagree)⟩
  · have hp : p < s.npcs := hp
    obtain ⟨hfirst,hroom⟩ := hok hbit
    have hnext := h.add hp hput hroom
    refine ⟨hnext,hnext.agree_iff.mpr ?_⟩
    rcases h.agree_iff.mp hagree with hpcsz | hzero
    · exact Or.inl hpcsz
    · rcases hfirst with rfl | hpcsz
      · refine Or.inr fun k hk hbitk => ?_
        by_contra hk0
        have hne : ¬ 0 = k := fun h0 => hk0 h0.symm
        simp only [bitAt_setAt hlt,hne,decide_false,Bool.or_false] at hbitk
        exact hk0 (hzero k hk hbitk)
      · exact Or.inl hpcsz

/-- After any other call on a sound store some piece is announced and not held, or held and
not announced. -/
theorem Uncut.not_agree (h : s.Uncut) (hagree : s.Agree) (hp : x.pcno < s.npcs)
    (hbad : ¬ s.Announceable x) (hx : s.call x = .ok (r,s')) : ¬ s'.Agree := by
  rcases call_cases hx with ⟨rfl,hheld⟩ | ⟨p,buf,cache,rfl,_,_,_,_⟩ | ⟨p,piece,cache,rfl,hlt,hbit,hput,rfl⟩
  · cases x with
    | add p piece =>
      refine absurd (fun hbit => ?_) hbad
      exact nomatch (hheld p piece rfl).symm.trans hbit
    | get p => exact absurd trivial hbad
  · exact absurd trivial hbad
  · intro hagree'
    have hp : p < s.npcs := hp
    by_cases hfull : s.cache.cvec.length = s.cache.maxsz
    · -- the key of a held piece is taken out
      obtain ⟨q,hq,_,hgone⟩ := (h.put_accessed hp hput).drop h.owned (h.missing hbit) hfull
      obtain ⟨k,hk,hbitk,rfl⟩ := (h.keys q).mp hq
      have hkey : k * s.pcsz = k := by
        rcases h.agree_iff.mp hagree with hpcsz | hzero
        · rw [hpcsz,Nat.mul_one]
        · rw [hzero k hk hbitk,Nat.zero_mul]
      have hheld := hagree' k hk
      rw [Bfield.exists_of_lt (by simpa using lt_of_lt_of_le hk h.bits),bitAt_setAt_of_bitAt hlt hbitk] at hheld
      have hmapped := (Except.ok.inj hheld).symm
      rw [ObjStore.exists,Cache.exists,AList.lookup_isSome,h.shape.toNat_ofNat hk,
        toInt_of_lt (by omega) (by exact_mod_cast h.shape.lt hk)] at hmapped
      rw [hkey] at hgone
      exact hgone hmapped
    · have hno : ¬ (p = 0 ∨ s.pcsz = 1) := fun hfirst => hbad fun _ => ⟨hfirst,hfull⟩
      rw [not_or] at hno
      have hnext := h.add hp hput hfull
      rcases hnext.agree_iff.mp hagree' with hpcsz | hzero
      · exact hno.2 hpcsz
      · exact hno.1 (hzero p hp (by simp [bitAt_setAt hlt]))

/-! ## Runs -/

theorem AnnouncesSoFar.last {hist : List (ObjStore × StoreCall × ℕ × List Cell)} {t : ObjStore}
    (h : AnnouncesSoFar hist t) : t.Announces := by
  cases hist with
  | nil => exact h
  | cons e hist => exact h.2.1

theorem AnnouncesSoFar.first {s₀ t : ObjStore} {hist : List (ObjStore × StoreCall × ℕ × List Cell)}
    (run : Run (ExecStep call) s₀ hist t) (h : AnnouncesSoFar hist t) : s₀.Announces := by
  induction run with
  | refl => exact h
  | tail _ _ ih => exact ih h.1

variable {fsz pcsz : ℕ}

theorem bfieldInit_bit (hnp : s.npcs = npcsOf fsz pcsz) (hasfile : Bool) (disk : List Cell) {p : ℕ}
    (hp : p < npcsOf fsz pcsz) : bitAt (s.bfieldInit hasfile disk).bfield.bfield p =
      (hasfile && (decide (8 * (npcsOf fsz pcsz / 8) ≤ p) || decide (p % 8 = 0))) := by
  rw [← hnp] at hp ⊢
  exact Bfield.bitAt_ofFile (by omega)

/-- A holder announces nothing at first, not even its first piece. -/
theorem not_agree_of_hasfile (hnew : ObjStore.new fsz pcsz (npcsOf fsz pcsz) = .ok s) (disk : List Cell) :
    ¬ (s.bfieldInit true disk).Agree := by
  obtain ⟨hne,hs⟩ := new_eq_ok.mp hnew
  have hnp : s.npcs = npcsOf fsz pcsz := by rw [hs]
  have hpos := Nat.pos_of_ne_zero hne
  intro hagree
  have h0 := hagree 0 (hnp ▸ hpos)
  have hbit := bfieldInit_bit hnp true disk hpos
  have hnone : (s.bfieldInit true disk).exists (UInt32.ofNat 0) = false := by
    rw [ObjStore.exists,Cache.exists]
    simp only [bfieldInit,hs,AList.lookup_empty,Option.isSome_none]
  rw [hnone,Bfield.exists_eq_ok] at h0
  obtain ⟨p,hp,_,hfalse⟩ := h0
  obtain rfl : 0 = p := by exact_mod_cast hp
  rw [hbit] at hfalse
  simp at hfalse

/-- A store without the file begins with an empty bitfield and an empty cache. -/
theorem uncut_init (hpos : 0 < pcsz) (hfsz : fsz < 2 ^ 31)
    (hnew : ObjStore.new fsz pcsz (npcsOf fsz pcsz) = .ok s) (disk : List Cell) :
    (s.bfieldInit false disk).Uncut ∧ (s.bfieldInit false disk).Agree ∧
      (s.bfieldInit false disk).npcs = npcsOf fsz pcsz := by
  have hinit : (s.bfieldInit false disk).Coherent ∧ _ := coherent_init hpos hfsz hnew false nofun
  obtain ⟨hcoh,hnp'⟩ := hinit
  obtain ⟨_,hs⟩ := new_eq_ok.mp hnew
  have hnp : s.npcs = npcsOf fsz pcsz := by rw [hs]
  have hclear : ∀ p, p < (s.bfieldInit false disk).npcs →
      bitAt (s.bfieldInit false disk).bfield.bfield p = false := fun p hp =>
    bfieldInit_bit hnp false disk (hnp' ▸ hp)
  have huncut : (s.bfieldInit false disk).Uncut := by
    refine ⟨hcoh.shape,?_,?_,fun q => ?_⟩
    · have hlen := Bfield.ofFile_length false s.npcs
      simp only [bfieldInit,hlen]
      omega
    · intro a ha
      simp only [bfieldInit,hs] at ha
      exact absurd ha List.not_mem_nil
    · constructor
      · intro hq
        simp only [bfieldInit,hs] at hq
        exact absurd hq (AList.notMem_empty q)
      · rintro ⟨p,hp,hbit,_⟩
        exact nomatch (hclear p hp).symm.trans hbit
  refine ⟨huncut,huncut.agree_iff.mpr (Or.inr fun p hp hbit => ?_),hnp'⟩
  exact nomatch (hclear p hp).symm.trans hbit

/-- In every run: the announcements are sound in all states exactly when the node begins
without the file, and every new piece is added to a cache that is not full under a
position that is its number. -/
theorem announcesSoFar_iff (hpos : 0 < pcsz) (hfsz : fsz < 2 ^ 31)
    (hnew : ObjStore.new fsz pcsz (npcsOf fsz pcsz) = .ok s) (hasfile : Bool) (disk : List Cell)
    {hist : List (ObjStore × StoreCall × ℕ × List Cell)} {t : ObjStore}
    (run : Run (ExecStep call) (s.bfieldInit hasfile disk) hist t)
    (hpcno : ∀ e ∈ hist, e.2.1.pcno < npcsOf fsz pcsz) :
    AnnouncesSoFar hist t ↔ hasfile = false ∧ ∀ e ∈ hist, e.1.Announceable e.2.1 := by
  cases hasfile with
  | true =>
    constructor
    · intro h
      exact absurd (h.first run).agree (not_agree_of_hasfile hnew disk)
    · exact fun h => absurd h.1 (by decide)
  | false =>
    obtain ⟨huncut,hagree,hnp⟩ := uncut_init hpos hfsz hnew disk
    suffices hall : (AnnouncesSoFar hist t ↔ ∀ e ∈ hist, e.1.Announceable e.2.1) ∧
        t.npcs = npcsOf fsz pcsz ∧ (AnnouncesSoFar hist t → t.Uncut) by
      rw [hall.1]
      exact ⟨fun h => ⟨rfl,h⟩,fun h => h.2⟩
    induction run with
    | refl => exact ⟨iff_of_true (huncut.announces hagree) (fun e he => absurd he List.not_mem_nil),hnp,
        fun _ => huncut⟩
    | @tail hist u t l run last ih =>
      obtain ⟨hiff,hnpu,hunc⟩ := ih fun e he => hpcno e (List.mem_cons_of_mem _ he)
      have hp : l.1.pcno < u.npcs := hnpu ▸ hpcno _ List.mem_cons_self
      have hnpt : t.npcs = u.npcs := call_npcs last
      have hback : AnnouncesSoFar ((u,l) :: hist) t → AnnouncesSoFar hist u ∧ u.Announceable l.1 := by
        intro h
        refine ⟨h.1,?_⟩
        by_contra hbad
        exact (hunc h.1).not_agree h.1.last.agree hp hbad last h.2.1.agree
      have hnext : AnnouncesSoFar hist u → u.Announceable l.1 → t.Uncut ∧ t.Agree := fun h hok =>
        (hunc h).step h.last.agree hp hok last
      refine ⟨?_,hnpt.trans hnpu,fun h => (hnext h.1 (hback h).2).1⟩
      rw [List.forall_mem_cons,← hiff]
      refine ⟨fun h => (hback h).symm,fun ⟨hok,h⟩ => ?_⟩
      obtain ⟨htunc,htagree⟩ := hnext h hok
      refine ⟨h,htunc.announces htagree,fun q hq hne => ?_⟩
      -- both states agree with bits that the call has not touched
      have hbits := call_bits last hne
      rw [htagree q (hnpt ▸ hq),h.last.agree q hq] at hbits
      exact Except.ok.inj hbits

/-- Pieces of one byte. -/
theorem announcesSoFar_bytes : ∃ s hist t, ObjStore.new 2 1 (npcsOf 2 1) = .ok s ∧
    Run (ExecStep call) (s.bfieldInit false []) hist t ∧
    hist.map (fun e => e.2.1) = [.get 1,.add 0 [some 97],.add 1 [some 98]] ∧ AnnouncesSoFar hist t := by
  have run := Run.refl.tail (show ExecStep call (bfieldInit ⟨2,1,2,⟨∅,[],[],⟨[],0⟩,1,2,5013504⟩,⟨[]⟩⟩ false [])
    (.add 1 [some 98],1,[]) _ from rfl)
  have run := run.tail (show ExecStep call _ (.add 0 [some 97],1,[]) _ from rfl)
  have run := run.tail (show ExecStep call _ (.get 1,1,[some 0]) _ from rfl)
  have hiff := announcesSoFar_iff (show 0 < 1 by decide) (show 2 < 2 ^ 31 by decide) rfl false [] run
  refine ⟨_,_,_,rfl,run,rfl,(hiff ?_).mpr ⟨rfl,?_⟩⟩
  · decide
  · decide

/-- Piece 1 is held and stands under the position 2, so it is not announced. -/
theorem not_announcesSoFar : ∃ s hist t, ObjStore.new 4 2 (npcsOf 4 2) = .ok s ∧
    Run (ExecStep call) (s.bfieldInit false []) hist t ∧
    hist.map (fun e => e.2.1) = [.add 1 [some 98,some 0]] ∧ ¬ AnnouncesSoFar hist t := by
  have run := Run.refl.tail (show ExecStep call (bfieldInit ⟨4,2,2,⟨∅,[],[],⟨[],0⟩,2,2,5013504⟩,⟨[]⟩⟩ false [])
    (.add 1 [some 98,some 0],1,[]) _ from rfl)
  refine ⟨_,_,_,rfl,run,rfl,fun h => ?_⟩
  exact absurd (h.last.agree 1 (by decide)) (by decide)

end ObjStore

end BTRx
