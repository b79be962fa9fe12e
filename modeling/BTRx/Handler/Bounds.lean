import BTRx.Handler.Turn

/-! # Indices that a peer controls

No length or piece number of a packet is checked, so a turn stays inside the vectors
exactly when the packet itself is harmless: a bitfield that is long enough and whose new
bits, behind everything `diff` already holds, still have an earmark byte; a piece number
inside the own bitfield, and below `npcs` wherever the cache is reached.
-/
namespace BTRx
open Memory ByteSet LittleEndian

/-! ## What a packet may hold -/

namespace Session

/-- The piece number with which a packet reaches `Cache::get` or `Cache::put`. -/
def cachePcno (s : Session) (pkt : PktMsg) : Option ℤ :=
  match pkt.type with
  | .Request =>
    if s.conn.chokedPeer = false ∧ s.ost.bfield.exists (toInt pkt.req.pcno.toNat) = .ok true
      then some (toInt pkt.req.pcno.toNat) else none
  | .Piece =>
    if s.ost.bfield.exists (toInt pkt.piece.pcno.toNat) = .ok false
      then some (toInt pkt.piece.pcno.toNat) else none
  | _ => none

/-- The turn on a packet indexes no vector outside, and the cache sees a piece number
below `npcs`. -/
def InRange (s : Session) (pkt : PktMsg) (junk : Bytes) : Prop :=
  (∀ f, s.handle pkt junk = .error f → ¬ f.Bounds) ∧
    ∀ p, s.cachePcno pkt = some p → 0 ≤ p ∧ p < s.ost.npcs

/-- The condition on a packet in a state. -/
def PacketSafe (s : Session) (pkt : PktMsg) : Prop :=
  match pkt.type with
  | .BitField => s.nmap.EarmarkFits s.ost.bfield.bfield pkt.bfield.bfield s.conn.diff
  | .Request => pkt.req.pcno.toNat < 8 * s.ost.bfield.bfield.length ∧
    (bitAt s.ost.bfield.bfield pkt.req.pcno.toNat = true → pkt.req.pcno.toNat < s.ost.npcs)
  | .Piece => pkt.piece.pcno.toNat < 8 * s.ost.bfield.bfield.length ∧
    (bitAt s.ost.bfield.bfield pkt.piece.pcno.toNat = false → pkt.piece.pcno.toNat < s.ost.npcs)
  | _ => True

/-- A connection past its handshake, on a node set up for `npcs` pieces. -/
structure Registered (s : Session) : Prop where
  npcs : s.ost.npcs < 2 ^ 31
  own : s.ost.bfield.bfield.length = (s.ost.npcs + 7) / 8
  marks : s.nmap.bfield.bfield.length = s.ost.npcs
  chokedPeer : s.conn.chokedPeer = false
  nbr : s.NbrLive

/-- A 32-bit number used as an `int` position is inside exactly when it is small. -/
theorem exists_uint32 {b : Bfield} (hb : 8 * b.bfield.length ≤ 2 ^ 31) (n : UInt32) :
    n.toNat < 8 * b.bfield.length ∧ toInt n.toNat = n.toNat ∧
        b.exists (toInt n.toNat) = .ok (bitAt b.bfield n.toNat) ∨
      ¬ n.toNat < 8 * b.bfield.length ∧ ∃ f : Fault, f.Bounds ∧ b.exists (toInt n.toNat) = .error f := by
  have hn := n.toNat_lt
  by_cases hlt : n.toNat < 8 * b.bfield.length
  · left
    have hint : toInt n.toNat = n.toNat := toInt_of_lt (by omega) (by omega)
    exact ⟨hlt,hint,by rw [hint,Bfield.exists_of_lt hlt]⟩
  · right
    refine ⟨hlt,?_⟩
    by_cases hpos : 0 ≤ toInt n.toNat
    · have hint : toInt n.toNat = n.toNat := toInt_of_nonneg (by omega) (by omega) hpos
      refine ⟨.outOfRange,Or.inl rfl,?_⟩
      rw [hint,Bfield.exists_natCast,if_neg hlt]
    · exact Bfield.exists_of_neg (Int.lt_of_not_ge hpos)

/-! ## One packet -/

theorem handle_eq_dispatch {s : Session} (hs : s.Registered) (pkt : PktMsg) (junk : Bytes) :
    ∃ new, s.handle pkt junk = ({ s with out := s.out ++ new } : Session).dispatch pkt junk := by
  obtain ⟨new,hnew⟩ := hs.nbr.chokeStatusCheck s.conn.chokedPeer
  exact ⟨new,by rw [handle,hnew,Outcome.ok_bind]⟩

theorem Registered.sent {s : Session} (hs : s.Registered) (out : List PktMsg) :
    Registered { s with out := out } := ⟨hs.npcs,hs.own,hs.marks,hs.chokedPeer,hs.nbr⟩

theorem Registered.own_le {s : Session} (hs : s.Registered) : 8 * s.ost.bfield.bfield.length ≤ 2 ^ 31 := by
  have h1 := hs.npcs
  have h2 := hs.own
  omega

theorem bitField_inRange {s : Session} (hs : s.Registered) {pkt : PktMsg} (ht : pkt.type = .BitField)
    (junk : Bytes) : s.InRange pkt junk ↔ s.PacketSafe pkt := by
  have hnone : s.cachePcno pkt = none := by simp only [cachePcno,ht]
  have hsafe : s.PacketSafe pkt ↔
      s.nmap.EarmarkFits s.ost.bfield.bfield pkt.bfield.bfield s.conn.diff := by
    simp only [PacketSafe,ht]
  obtain ⟨new,hd⟩ := handle_eq_dispatch hs pkt junk
  rw [InRange,hnone,hd,dispatch_bitField _ ht,hsafe]
  constructor
  · rintro ⟨hf,_⟩
    by_contra hfit
    have he := NbrMap.earmark_of_not_fits hfit
    exact hf .outOfRange (by rw [he,Outcome.error_bind]) (Or.inl rfl)
  · intro hfit
    obtain ⟨ret,diff',b,he,_⟩ := NbrMap.earmark_of_fits hfit
    refine ⟨?_,nofun⟩
    intro f hf
    rw [he] at hf
    cases hf

theorem request_inRange {s : Session} (hs : s.Registered) {pkt : PktMsg} (ht : pkt.type = .Request)
    (junk : Bytes) : s.InRange pkt junk ↔ s.PacketSafe pkt := by
  obtain ⟨new,hd⟩ := handle_eq_dispatch hs pkt junk
  obtain ⟨k,nbr,hn⟩ := (hs.sent (s.out ++ new)).nbr.nbrAt
  have hcp := hs.chokedPeer
  -- the turn fails where `get_piece` does
  have hfail : ∀ f : Fault, f.Bounds → (s.handle pkt junk = .error f ↔
      s.ost.getPiece (toInt pkt.req.pcno.toNat) = .error f) := by
    intro f hf
    rw [hd]
    simp only [dispatch,ht,hn,Outcome.ok_bind,answerRequest,setNbr,hcp,Bool.not_false,if_true,sendPiece]
    constructor
    · intro h
      rcases Outcome.bind_eq_error.mp h with h | ⟨s₁,_,h⟩
      · rcases Outcome.bind_eq_error.mp h with h | ⟨⟨r,buf,ost⟩,_,h⟩
        · exact h
        · exfalso
          split at h
          · cases h
            simp [Fault.Bounds] at hf
          · cases h
      · cases h
    · intro h
      rw [h]
      rfl
  rw [InRange]
  simp only [PacketSafe,ht]
  rcases exists_uint32 hs.own_le pkt.req.pcno with ⟨hlt,hint,hex⟩ | ⟨hge,f,hf,hex⟩
  · have hget : ∀ f : Fault, f.Bounds → s.ost.getPiece (toInt pkt.req.pcno.toNat) ≠ .error f := by
      intro f hf h
      rw [hint] at h
      cases hbit : bitAt s.ost.bfield.bfield pkt.req.pcno.toNat with
      | false =>
        rw [ObjStore.getPiece_of_missing hlt hbit] at h
        cases h
      | true =>
        rw [ObjStore.getPiece_of_held hlt hbit] at h
        rcases Outcome.bind_eq_error.mp h with h | ⟨r,_,h⟩
        · exact (Cache.get_error h).not_bounds hf
        · cases h
    have hcache : s.cachePcno pkt = if bitAt s.ost.bfield.bfield pkt.req.pcno.toNat = true
        then some (pkt.req.pcno.toNat : ℤ) else none := by
      rw [← hint]
      simp only [cachePcno,ht,hcp,hex,true_and,Except.ok.injEq]
    rw [hcache]
    constructor
    · rintro ⟨_,hp⟩
      refine ⟨hlt,fun hbit => ?_⟩
      exact_mod_cast (hp _ (if_pos hbit)).2
    · rintro ⟨_,hp⟩
      refine ⟨fun f hh hf => hget f hf ((hfail f hf).mp hh),?_⟩
      intro p hcp
      split at hcp
      · rename_i hbit
        cases hcp
        exact ⟨by omega,by exact_mod_cast hp hbit⟩
      · cases hcp
  · have hget : s.ost.getPiece (toInt pkt.req.pcno.toNat) = .error f := by
      rw [ObjStore.getPiece,hex,Outcome.error_bind]
    constructor
    · rintro ⟨hno,_⟩
      exact absurd hf (hno f ((hfail f hf).mpr hget))
    · rintro ⟨hlt,_⟩
      exact absurd hlt hge

theorem piece_inRange {s : Session} (hs : s.Registered) {pkt : PktMsg} (ht : pkt.type = .Piece)
    (junk : Bytes) : s.InRange pkt junk ↔ s.PacketSafe pkt := by
  obtain ⟨new,hd⟩ := handle_eq_dispatch hs pkt junk
  obtain ⟨piece,hpiece⟩ : ∃ piece,
      piece = snprintf s.ost.pcsz (pkt.piece.payload.map some ++ [some 0]) := ⟨_,rfl⟩
  have hfail : ∀ f : Fault, (s.handle pkt junk = .error f ↔
      s.ost.addPiece (toInt pkt.piece.pcno.toNat) piece = .error f) := by
    intro f
    rw [hd]
    simp only [dispatch,ht,handlePiece,← hpiece]
    constructor
    · intro h
      rcases Outcome.bind_eq_error.mp h with h | ⟨r,_,h⟩
      · exact h
      · cases h
    · intro h
      rw [h]
      rfl
  rw [InRange]
  simp only [PacketSafe,ht]
  rcases exists_uint32 hs.own_le pkt.piece.pcno with ⟨hlt,hint,hex⟩ | ⟨hge,f,hf,hex⟩
  · have hadd : ∀ f : Fault, f.Bounds → s.ost.addPiece (toInt pkt.piece.pcno.toNat) piece ≠ .error f := by
      intro f hf h
      rw [hint] at h
      cases hbit : bitAt s.ost.bfield.bfield pkt.piece.pcno.toNat with
      | true =>
        rw [ObjStore.addPiece_of_held hlt hbit] at h
        cases h
      | false =>
        rw [ObjStore.addPiece_of_missing hlt hbit] at h
        rcases Outcome.bind_eq_error.mp h with h | ⟨r,_,h⟩
        · rcases Cache.put_error h with rfl | hstale
          · simp [Fault.Bounds] at hf
          · exact hstale.not_bounds hf
        · cases h
    have hcache : s.cachePcno pkt = if bitAt s.ost.bfield.bfield pkt.piece.pcno.toNat = false
        then some (pkt.piece.pcno.toNat : ℤ) else none := by
      rw [← hint]
      simp only [cachePcno,ht,hex,Except.ok.injEq]
    rw [hcache]
    constructor
    · rintro ⟨_,hp⟩
      refine ⟨hlt,fun hbit => ?_⟩
      exact_mod_cast (hp _ (if_pos hbit)).2
    · rintro ⟨_,hp⟩
      refine ⟨fun f hh hf => hadd f hf ((hfail f).mp hh),?_⟩
      intro p hcp
      split at hcp
      · rename_i hbit
        cases hcp
        exact ⟨by omega,by exact_mod_cast hp hbit⟩
      · cases hcp
  · have hadd : s.ost.addPiece (toInt pkt.piece.pcno.toNat) piece = .error f := by
      rw [ObjStore.addPiece,hex,Outcome.error_bind]
    constructor
    · rintro ⟨hno,_⟩
      exact absurd hf (hno f ((hfail f).mpr hadd))
    · rintro ⟨hlt,_⟩
      exact absurd hlt hge

/-- A packet outside the three cases that use an index. -/
theorem dispatch_quiet {pkt : PktMsg} (junk : Bytes) (s : Session) (hb : pkt.type ≠ .BitField)
    (hr : pkt.type ≠ .Request) (hp : pkt.type ≠ .Piece) :
    match s.dispatch pkt junk with
    | .ok s' => s'.ost = s.ost ∧ (s.NbrLive → s'.NbrLive)
    | .error f => ¬ f.Bounds := by
  have hfault : ∀ f, s.nbrAt = .error f → ¬ f.Bounds := by
    intro f hf
    unfold nbrAt at hf
    split at hf
    · cases hf
      simp [Fault.Bounds]
    · split at hf
      · cases hf
      · cases hf
        simp [Fault.Bounds]
  unfold dispatch
  cases hty : pkt.type with
  | Handshake =>
    simp only [NbrMap.registerCli]
    refine ⟨?_,fun _ => ⟨_,rfl,?_⟩⟩
    · split <;> rfl
    · simp
  | Choke => exact ⟨rfl,id⟩
  | UnChoke => exact ⟨rfl,id⟩
  | Interested =>
    cases hn : s.nbrAt with
    | ok r => exact ⟨rfl,fun h => h.setNbr _ _⟩
    | error f => exact hfault f hn
  | NotInterested =>
    cases hn : s.nbrAt with
    | ok r => exact ⟨rfl,fun h => h.setNbr _ _⟩
    | error f => exact hfault f hn
  | Have =>
    simp only [handleHave]
    split <;> exact ⟨rfl,id⟩
  | BitField => exact absurd hty hb
  | Request => exact absurd hty hr
  | Piece => cases hp hty
  | Unnamed c h => simp [Fault.Bounds]

theorem cachePcno_quiet {pkt : PktMsg} {s : Session} (hr : pkt.type ≠ .Request)
    (hp : pkt.type ≠ .Piece) : s.cachePcno pkt = none := by
  unfold cachePcno
  split <;> first | contradiction | rfl

theorem quiet_inRange {s : Session} (hs : s.Registered) {pkt : PktMsg} (hb : pkt.type ≠ .BitField)
    (hr : pkt.type ≠ .Request) (hp : pkt.type ≠ .Piece) (junk : Bytes) : s.InRange pkt junk := by
  obtain ⟨new,hd⟩ := handle_eq_dispatch hs pkt junk
  refine ⟨?_,by rw [cachePcno_quiet hr hp]; exact nofun⟩
  intro f hf
  have h := dispatch_quiet junk { s with out := s.out ++ new } hb hr hp
  rw [← hd,hf] at h
  exact h

theorem inRange_iff {s : Session} (hs : s.Registered) (pkt : PktMsg) (junk : Bytes) :
    s.InRange pkt junk ↔ s.PacketSafe pkt := by
  by_cases hb : pkt.type = .BitField
  · exact bitField_inRange hs hb junk
  by_cases hr : pkt.type = .Request
  · exact request_inRange hs hr junk
  by_cases hp : pkt.type = .Piece
  · exact piece_inRange hs hp junk
  have hsafe : s.PacketSafe pkt := by
    unfold PacketSafe
    split <;> first | contradiction | trivial
  exact ⟨fun _ => hsafe,fun _ => quiet_inRange hs hb hr hp junk⟩
/-! ## Sequences of packets -/

theorem bitField_frame {pkt : PktMsg} {junk : Bytes} {s s' : Session} (ht : pkt.type = .BitField)
    (h : s.dispatch pkt junk = .ok s') : s'.ost = s.ost ∧ s'.conn.nbr = s.conn.nbr ∧
      s'.nmap.nbrs = s.nmap.nbrs ∧ s'.conn.chokedPeer = s.conn.chokedPeer ∧
      s'.nmap.bfield.bfield.length = s.nmap.bfield.bfield.length := by
  rw [dispatch_bitField s ht] at h
  by_cases hfit : s.nmap.EarmarkFits s.ost.bfield.bfield pkt.bfield.bfield s.conn.diff
  · obtain ⟨ret,diff,b,he,hlen⟩ := NbrMap.earmark_of_fits hfit
    rw [he] at h
    cases h
    obtain ⟨host,hnmap,hconn,_⟩ := answerBitField_spec ret
      { s.recvBitField pkt with
        nmap := { s.nmap with bfield := b }
        conn := { (s.recvBitField pkt).conn with diff } }
    rw [host,hnmap,hconn,recvBitField_eq]
    exact ⟨rfl,rfl,rfl,rfl,hlen⟩
  · rw [NbrMap.earmark_of_not_fits hfit] at h
    cases h

theorem handle_nbrLive {pkt : PktMsg} {junk : Bytes} {s s' : Session} (hs : s.NbrLive)
    (h : s.handle pkt junk = .ok s') : s'.NbrLive := by
  obtain ⟨s₁,h₁,h⟩ := Outcome.bind_eq_ok.mp h
  obtain ⟨new,rfl,_⟩ := chokeStatusCheck_eq_ok h₁
  by_cases hb : pkt.type = .BitField
  · obtain ⟨_,hn,hm,_⟩ := bitField_frame hb h
    obtain ⟨k,hk,hlt⟩ := hs
    exact ⟨k,by rw [hn,hk],by rw [hm]; exact hlt⟩
  by_cases hr : pkt.type = .Request
  · obtain ⟨k,nbr,_,s₂,h₂,rfl⟩ := dispatch_request hr h
    obtain ⟨_,_,_,hconn,hnmap,_⟩ := answerRequest_sent h₂
    have hlive : s₂.NbrLive := by
      obtain ⟨l,hl,hlt⟩ := NbrLive.setNbr hs k { nbr with requests := nbr.requests + 1 }
      exact ⟨l,by rw [hconn]; exact hl,by rw [hnmap]; exact hlt⟩
    split
    · exact hlive
    · exact hlive
  by_cases hp : pkt.type = .Piece
  · simp only [dispatch,hp] at h
    obtain ⟨_,_,_,ost,rfl,_⟩ := handlePiece_eq_ok h
    exact hs
  have hq := dispatch_quiet junk { s with out := s.out ++ new } hb hr hp
  rw [h] at hq
  exact hq.2 hs

theorem handle_registered {pkt : PktMsg} {junk : Bytes} {s s' : Session} (hs : s.Registered)
    (h : s.handle pkt junk = .ok s') : s'.Registered := by
  have hlive := handle_nbrLive hs.nbr h
  by_cases hb : pkt.type = .BitField
  · obtain ⟨s₁,h₁,h⟩ := Outcome.bind_eq_ok.mp h
    obtain ⟨new,rfl,_⟩ := chokeStatusCheck_eq_ok h₁
    obtain ⟨host,_,_,hcp,hlen⟩ := bitField_frame hb h
    exact ⟨by rw [host]; exact hs.npcs,by rw [host]; exact hs.own,by rw [hlen,host]; exact hs.marks,
      by rw [hcp]; exact hs.chokedPeer,hlive⟩
  · have hturn := handle_turned hb h
    obtain ⟨_,_,hnpcs⟩ := hturn.same.shape
    have hlen : s'.ost.bfield.bfield.length = s.ost.bfield.bfield.length := by
      by_cases hp : pkt.type = .Piece
      · obtain ⟨p,_,_,hset⟩ := hturn.stored hp
        rw [hset,setAt_length]
      · rw [hturn.held hp]
    exact ⟨by rw [hnpcs]; exact hs.npcs,by rw [hlen,hnpcs]; exact hs.own,
      by rw [hturn.marks,hnpcs]; exact hs.marks,by rw [hturn.same.chokedPeer]; exact hs.chokedPeer,
      hlive⟩

/-- A handshake on a node as `Node` sets it up leaves the connection registered. -/
theorem registered_of_handshake {fsz pcsz npcs : ℕ} {ost : ObjStore}
    (hnew : ObjStore.new fsz pcsz npcs = .ok ost) (hnpcs : npcs < 2 ^ 31) (hasfile : Bool)
    (disk : List Cell) (npeers : UInt32) (peeridSelf peeridPeer : ℤ) {pkt : PktMsg}
    (ht : pkt.type = .Handshake) {junk : Bytes} {s : Session}
    (h : Session.handle pkt junk (Session.start ⟨ost.bfieldInit hasfile disk,NbrMap.new npeers npcs,
      Conn.new peeridSelf peeridPeer,[]⟩) = .ok s) : s.Registered := by
  obtain ⟨cache,_,hnew⟩ := Outcome.bind_eq_ok.mp hnew
  cases hnew
  -- the connection has no neighbour yet, so nothing is checked in front of the switch
  have hout : ∃ out, Session.start ⟨ObjStore.bfieldInit ⟨fsz,pcsz,npcs,cache,⟨[]⟩⟩ hasfile disk,
      NbrMap.new npeers npcs,Conn.new peeridSelf peeridPeer,[]⟩ =
      ⟨ObjStore.bfieldInit ⟨fsz,pcsz,npcs,cache,⟨[]⟩⟩ hasfile disk,NbrMap.new npeers npcs,
        Conn.new peeridSelf peeridPeer,out⟩ := by
    unfold start
    split <;> exact ⟨_,rfl⟩
  obtain ⟨out,hout⟩ := hout
  rw [hout] at h
  obtain ⟨s₁,h₁,h⟩ := Outcome.bind_eq_ok.mp h
  obtain ⟨new,rfl,_⟩ := chokeStatusCheck_eq_ok h₁
  have hturn := dispatch_turned (by rw [ht]; exact nofun) h
  obtain ⟨_,_,hshape⟩ := hturn.same.shape
  have hheld := hturn.held (by rw [ht]; exact nofun)
  have hlen := Bfield.ofFile_length hasfile npcs
  refine ⟨by rw [hshape]; exact hnpcs,by rw [hheld,hshape]; exact hlen,?_,?_,?_⟩
  · rw [hturn.marks,hshape]
    exact List.length_replicate
  · rw [hturn.same.chokedPeer]
    rfl
  · simp only [dispatch,ht,NbrMap.registerCli] at h
    cases h
    exact ⟨_,rfl,by simp⟩

def AllInRange (s : Session) : List (PktMsg × Bytes) → Prop
  | [] => True
  | (pkt,junk) :: rest => s.InRange pkt junk ∧ ∀ s', s.handle pkt junk = .ok s' → s'.AllInRange rest

def AllSafe (s : Session) : List (PktMsg × Bytes) → Prop
  | [] => True
  | (pkt,junk) :: rest => s.PacketSafe pkt ∧ ∀ s', s.handle pkt junk = .ok s' → s'.AllSafe rest

/-- No index leaves its vector exactly when every packet is harmless where it arrives. -/
theorem packets_inRange_iff {s : Session} (hs : s.Registered) (pkts : List (PktMsg × Bytes)) :
    s.AllInRange pkts ↔ s.AllSafe pkts := by
  induction pkts generalizing s with
  | nil => exact Iff.rfl
  | cons p rest ih =>
    obtain ⟨pkt,junk⟩ := p
    simp only [AllInRange,AllSafe]
    exact and_congr (inRange_iff hs pkt junk)
      (forall₂_congr fun s' h => ih (handle_registered hs h))

/-- One piece, of which a peer asks for number 0. -/
theorem packets_inRange_request : ∃ ost s, ObjStore.new 1 1 1 = .ok ost ∧
    Session.handle { type := .Handshake } [] (Session.start
      ⟨ost.bfieldInit true [some 7],NbrMap.new 1 1,Conn.new 1 0,[]⟩) = .ok s ∧
    s.AllInRange [(requestPkt 0,[])] := by
  refine ⟨_,_,rfl,rfl,?_⟩
  refine (packets_inRange_iff ?_ _).mpr ⟨⟨by decide,fun _ => by decide⟩,fun _ _ => trivial⟩
  exact ⟨by decide,by decide,by decide,rfl,0,rfl,by decide⟩

/-- The same node, asked for number 8, indexes the second byte of a bitfield of one. -/
theorem packets_not_inRange : ∃ ost s, ObjStore.new 1 1 1 = .ok ost ∧
    Session.handle { type := .Handshake } [] (Session.start
      ⟨ost.bfieldInit true [some 7],NbrMap.new 1 1,Conn.new 1 0,[]⟩) = .ok s ∧
    ¬ s.AllInRange [(requestPkt 8,[])] := by
  refine ⟨_,_,rfl,rfl,?_⟩
  rintro ⟨⟨h,_⟩,_⟩
  exact h .outOfRange rfl (Or.inl rfl)

end Session
end BTRx
