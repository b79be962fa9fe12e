import BTRx.Handler.Handler

/-! # What one turn of the loop can do

A turn on any packet but `BitField` leaves the earmarks and `diff` alone, adds at most
the piece of a `Piece` packet to the own bitfield, and asks only for pieces in `reqs`.
Every invariant of the handlers is derived from this statement and from the three
stages of the `BitField` case.
-/
namespace BTRx
open Memory ByteSet LittleEndian
namespace Session

/-- What has been sent asks only for pieces of a map, and holds no bitfield. -/
def AsksOnly (reqs : Reqs) (new : List PktMsg) : Prop :=
  ∀ m ∈ new, m.type ≠ .BitField ∧ (m.type = .Request → m.req.pcno ∈ reqs)

theorem asksOnly_nil (reqs : Reqs) : AsksOnly reqs [] := nofun

theorem AsksOnly.append {reqs : Reqs} {a b : List PktMsg} (ha : AsksOnly reqs a)
    (hb : AsksOnly reqs b) : AsksOnly reqs (a ++ b) := by
  intro m hm
  rcases List.mem_append.mp hm with h | h
  · exact ha m h
  · exact hb m h

theorem asksOnly_single {reqs : Reqs} {m : PktMsg} (hb : m.type ≠ .BitField)
    (hr : m.type ≠ .Request) : AsksOnly reqs [m] := by
  intro m' hm
  rw [List.mem_singleton.mp hm]
  exact ⟨hb,fun h => absurd h hr⟩

theorem asksOnly_requests (reqs : Reqs) : AsksOnly reqs (reqs.keys.map requestPkt) := by
  intro m hm
  obtain ⟨q,hq,rfl⟩ := List.mem_map.mp hm
  exact ⟨by simp [requestPkt],fun _ => hq⟩

/-- What stays the same besides the fields a turn is about. -/
structure SameConn (s s' : Session) : Prop where
  client : s'.conn.client = s.conn.client
  chokedPeer : s'.conn.chokedPeer = s.conn.chokedPeer
  peeridSelf : s'.conn.peeridSelf = s.conn.peeridSelf
  shape : s'.ost.fsz = s.ost.fsz ∧ s'.ost.pcsz = s.ost.pcsz ∧ s'.ost.npcs = s.ost.npcs

/-- The pointer `nbr` is set and valid. -/
def NbrLive (s : Session) : Prop := ∃ k, s.conn.nbr = some k ∧ k < s.nmap.nbrs.length

theorem NbrLive.nbrAt {s : Session} (hs : s.NbrLive) : ∃ k nbr, s.nbrAt = .ok (k,nbr) := by
  obtain ⟨k,hk,hlt⟩ := hs
  exact ⟨k,s.nmap.nbrs[k],by simp [Session.nbrAt,hk,hlt]⟩

theorem NbrLive.setNbr {s : Session} (hs : s.NbrLive) (k : ℕ) (nbr : Nbr) :
    (s.setNbr k nbr).NbrLive := by
  obtain ⟨l,hl,hlt⟩ := hs
  exact ⟨l,hl,by simpa [Session.setNbr] using hlt⟩

theorem NbrLive.chokeStatusCheck {s : Session} (hs : s.NbrLive) (b : Bool) :
    ∃ new, s.chokeStatusCheck b = .ok { s with out := s.out ++ new } := by
  obtain ⟨k,nbr,hn⟩ := hs.nbrAt
  have hsome : s.conn.nbr.isNone = false := by
    obtain ⟨l,hl,_⟩ := hs
    rw [hl]
    rfl
  simp only [Session.chokeStatusCheck,hsome,hn,Outcome.ok_bind,Outcome.pure_eq,sendChokeStatus]
  by_cases hb : b ≠ nbr.choked
  · rw [if_pos hb]
    cases nbr.choked with
    | true => exact ⟨_,rfl⟩
    | false => exact ⟨_,rfl⟩
  · rw [if_neg hb]
    exact ⟨[],by simp⟩

/-- Everything a turn without a bitfield can have done. -/
structure Turned (pkt : PktMsg) (s s' : Session) : Prop where
  same : SameConn s s'
  marks : s'.nmap.bfield = s.nmap.bfield
  diff : s'.conn.diff = s.conn.diff
  peer : s'.conn.bfieldPeer = s.conn.bfieldPeer
  reqs : s'.conn.reqs =
    if pkt.type = .Piece then s.conn.reqs.erase pkt.piece.pcno else s.conn.reqs
  held : pkt.type ≠ .Piece → s'.ost.bfield = s.ost.bfield
  stored : pkt.type = .Piece → ∃ p : ℕ, toInt pkt.piece.pcno.toNat = p ∧
    p < 8 * s.ost.bfield.bfield.length ∧ s'.ost.bfield = ⟨setAt s.ost.bfield.bfield p⟩
  sent : ∃ new, s'.out = s.out ++ new ∧ AsksOnly s.conn.reqs new

/-- A Piece adds its own number to what is held. -/
theorem Turned.bitAt_held {pkt : PktMsg} {s s' : Session} (h : Turned pkt s s') (ht : pkt.type = .Piece)
    (p : ℕ) : bitAt s'.ost.bfield.bfield p = true ↔
      bitAt s.ost.bfield.bfield p = true ∨ p = pkt.piece.pcno.toNat := by
  obtain ⟨q,hint,hlt,hset⟩ := h.stored ht
  have hn := pkt.piece.pcno.toNat_lt
  have hnat := toInt_of_nonneg (x := pkt.piece.pcno.toNat) (by omega) (by omega) (by omega)
  have hq : q = pkt.piece.pcno.toNat := by omega
  rw [hset,bitAt_setAt hlt,Bool.or_eq_true,decide_eq_true_eq,hq,eq_comm (a := p)]

/-- `choke_status_check` sends at most one packet and changes nothing. -/
theorem chokeStatusCheck_eq_ok {b : Bool} {s s' : Session} (h : s.chokeStatusCheck b = .ok s') :
    ∃ new, s' = { s with out := s.out ++ new } ∧
      (new = [] ∨ new = [{ type := .Choke }] ∨ new = [{ type := .UnChoke }]) := by
  unfold chokeStatusCheck at h
  by_cases hn : s.conn.nbr.isNone = true
  · rw [if_pos hn] at h
    cases h
    exact ⟨[],by simp,Or.inl rfl⟩
  · rw [if_neg hn] at h
    obtain ⟨⟨k,nbr⟩,_,h⟩ := Outcome.bind_eq_ok.mp h
    cases h
    by_cases hb : b ≠ nbr.choked
    · simp only [if_pos hb,sendChokeStatus]
      cases nbr.choked with
      | true => exact ⟨[{ type := .Choke }],rfl,Or.inr (Or.inl rfl)⟩
      | false => exact ⟨[{ type := .UnChoke }],rfl,Or.inr (Or.inr rfl)⟩
    · simp only [if_neg hb]
      exact ⟨[],by simp,Or.inl rfl⟩

theorem asksOnly_choke {reqs : Reqs} {new : List PktMsg}
    (h : new = [] ∨ new = [{ type := .Choke }] ∨ new = [{ type := .UnChoke }]) :
    AsksOnly reqs new := by
  rcases h with rfl | rfl | rfl
  · exact asksOnly_nil reqs
  · exact asksOnly_single nofun nofun
  · exact asksOnly_single nofun nofun

/-- A turn that changes neither the store, nor the earmarks, nor `diff` and `reqs`. -/
theorem Turned.of_sends {pkt : PktMsg} {s s' : Session} (ht : pkt.type ≠ .Piece) (same : SameConn s s')
    (host : s'.ost.bfield = s.ost.bfield) (hmarks : s'.nmap.bfield = s.nmap.bfield)
    (hdiff : s'.conn.diff = s.conn.diff) (hpeer : s'.conn.bfieldPeer = s.conn.bfieldPeer)
    (hreqs : s'.conn.reqs = s.conn.reqs) (new : List PktMsg) (hout : s'.out = s.out ++ new)
    (hnew : AsksOnly s.conn.reqs new) : Turned pkt s s' :=
  ⟨same,hmarks,hdiff,hpeer,by rw [if_neg ht,hreqs],fun _ => host,fun h => absurd h ht,new,hout,hnew⟩

/-- `send_piece` returns only for a piece that is held, and then sends it. -/
theorem sendPiece_eq_ok {pcno : UInt32} {junk : Bytes} {s s' : Session}
    (h : s.sendPiece pcno junk = .ok s') : ∃ p : ℕ, toInt pcno.toNat = p ∧
      p < 8 * s.ost.bfield.bfield.length ∧ bitAt s.ost.bfield.bfield p = true ∧
      ∃ buf cache, s.ost.cache.get p = .ok (buf,cache) ∧ s' = ({ s with ost := { s.ost with cache } }).send
        { type := .Piece, piece := { pcno, payload := cString buf junk } } := by
  obtain ⟨⟨r,buf,ost⟩,hget,h⟩ := Outcome.bind_eq_ok.mp h
  obtain ⟨p,hp,hlt,hcases⟩ := ObjStore.getPiece_eq_ok hget
  rcases hcases with ⟨_,rfl,_,rfl⟩ | ⟨hbit,rfl,cache,hc,rfl⟩
  · simp at h
  · simp only [Nat.one_ne_zero,if_false] at h
    cases h
    exact ⟨p,hp,hlt,hbit,buf,cache,hc,rfl⟩

/-- What `handle_piece` hands to `add_piece`. -/
def pieceBuf (pkt : PktMsg) (s : Session) : List Cell :=
  snprintf s.ost.pcsz (pkt.piece.payload.map some ++ [some 0])

theorem handlePiece_eq_ok {pkt : PktMsg} {s s' : Session} (h : s.handlePiece pkt = .ok s') :
    ∃ p : ℕ, toInt pkt.piece.pcno.toNat = p ∧ p < 8 * s.ost.bfield.bfield.length ∧ ∃ ost,
      s' = { s with ost, conn := { s.conn with reqs := s.conn.reqs.erase pkt.piece.pcno } } ∧
      (bitAt s.ost.bfield.bfield p = true ∧ ost = s.ost ∨ bitAt s.ost.bfield.bfield p = false ∧
        ∃ cache, s.ost.cache.put p (s.pieceBuf pkt) = .ok cache ∧
          ost = { s.ost with cache, bfield := ⟨setAt s.ost.bfield.bfield p⟩ }) := by
  obtain ⟨⟨r,ost⟩,hadd,h⟩ := Outcome.bind_eq_ok.mp h
  cases h
  obtain ⟨p,hp,hlt,hcases⟩ := ObjStore.addPiece_eq_ok hadd
  refine ⟨p,hp,hlt,ost,rfl,?_⟩
  rcases hcases with ⟨hbit,_,rfl⟩ | ⟨hbit,_,cache,hput,rfl⟩
  · exact Or.inl ⟨hbit,rfl⟩
  · exact Or.inr ⟨hbit,cache,hput,rfl⟩

theorem handlePiece_turned {pkt : PktMsg} {s s' : Session} (ht : pkt.type = .Piece)
    (h : s.handlePiece pkt = .ok s') : Turned pkt s s' := by
  obtain ⟨p,hp,hlt,ost,rfl,hcases⟩ := handlePiece_eq_ok h
  have hsame : ost.fsz = s.ost.fsz ∧ ost.pcsz = s.ost.pcsz ∧ ost.npcs = s.ost.npcs := by
    rcases hcases with ⟨_,rfl⟩ | ⟨_,cache,_,rfl⟩ <;> exact ⟨rfl,rfl,rfl⟩
  have hset : ost.bfield = ⟨setAt s.ost.bfield.bfield p⟩ := by
    rcases hcases with ⟨hbit,rfl⟩ | ⟨_,cache,_,rfl⟩
    · rw [setAt_of_bitAt hbit]
    · rfl
  exact ⟨⟨rfl,rfl,rfl,hsame⟩,rfl,rfl,rfl,by rw [if_pos ht],fun hne => absurd ht hne,
    fun _ => ⟨p,hp,hlt,hset⟩,[],by simp,asksOnly_nil _⟩

theorem handleHave_turned {pkt : PktMsg} (s : Session) (ht : pkt.type ≠ .Piece) :
    Turned pkt s (s.handleHave pkt) := by
  unfold handleHave
  by_cases hr : pkt.have.pcno ∈ s.conn.reqs
  · rw [if_pos hr]
    refine Turned.of_sends ht ⟨rfl,rfl,rfl,rfl,rfl,rfl⟩ rfl rfl rfl rfl rfl
      [{ type := .Interested },requestPkt pkt.have.pcno] (by simp [sendInterested,send]) ?_
    intro m hm
    rcases List.mem_cons.mp hm with rfl | hm
    · exact ⟨nofun,nofun⟩
    · rw [List.mem_singleton.mp hm]
      exact ⟨nofun,fun _ => hr⟩
  · rw [if_neg hr]
    exact Turned.of_sends ht ⟨rfl,rfl,rfl,rfl,rfl,rfl⟩ rfl rfl rfl rfl rfl [] (by simp) (asksOnly_nil _)

/-- The packets of `send_haves`. -/
def haves (ost : ObjStore) (bfieldPeer : List UInt8) : List PktMsg :=
  (((setPositions bfieldPeer).map pcnoAt).filter fun pcno => ost.exists pcno).map havePkt

theorem sendHaves_eq (s : Session) :
    s.sendHaves = { s with out := s.out ++ haves s.ost s.conn.bfieldPeer } := (rfl)

/-- The Request case: a piece unless the peer is choked, then all requests unless the
node is. -/
theorem dispatch_request {pkt : PktMsg} {junk : Bytes} {s s' : Session} (ht : pkt.type = .Request)
    (h : s.dispatch pkt junk = .ok s') : ∃ k nbr, s.nbrAt = .ok (k,nbr) ∧ ∃ s₁,
      (s.setNbr k { nbr with requests := nbr.requests + 1 }).answerRequest pkt.req.pcno junk = .ok s₁ ∧
      s' = if !s₁.conn.chokedNode then s₁.sendRequests else s₁ := by
  unfold dispatch at h
  simp only [ht] at h
  obtain ⟨⟨k,nbr⟩,hn,h⟩ := Outcome.bind_eq_ok.mp h
  obtain ⟨s₁,h₁,h⟩ := Outcome.bind_eq_ok.mp h
  cases h
  exact ⟨k,nbr,hn,s₁,h₁,rfl⟩

theorem answerRequest_eq_ok {pcno : UInt32} {junk : Bytes} {s s' : Session}
    (h : s.answerRequest pcno junk = .ok s') : s.conn.chokedPeer = true ∧ s' = s ∨
      s.conn.chokedPeer = false ∧ ∃ p : ℕ, toInt pcno.toNat = p ∧
        p < 8 * s.ost.bfield.bfield.length ∧ bitAt s.ost.bfield.bfield p = true ∧
        ∃ buf cache, s.ost.cache.get p = .ok (buf,cache) ∧ s' = ({ s with ost := { s.ost with cache } }).send
          { type := .Piece, piece := { pcno, payload := cString buf junk } } := by
  unfold answerRequest at h
  cases hc : s.conn.chokedPeer with
  | true =>
    rw [hc] at h
    cases h
    exact Or.inl ⟨rfl,rfl⟩
  | false =>
    rw [hc] at h
    exact Or.inr ⟨rfl,sendPiece_eq_ok h⟩

/-- The first half of the Request case sends at most a piece. -/
theorem answerRequest_sent {pcno : UInt32} {junk : Bytes} {s s' : Session}
    (h : s.answerRequest pcno junk = .ok s') : ∃ new, s'.out = s.out ++ new ∧
      AsksOnly s.conn.reqs new ∧ s'.conn = s.conn ∧ s'.nmap = s.nmap ∧ s'.ost.bfield = s.ost.bfield ∧
      s'.ost.fsz = s.ost.fsz ∧ s'.ost.pcsz = s.ost.pcsz ∧ s'.ost.npcs = s.ost.npcs := by
  rcases answerRequest_eq_ok h with ⟨_,rfl⟩ | ⟨_,p,_,_,_,buf,cache,_,rfl⟩
  · exact ⟨[],by simp,asksOnly_nil _,rfl,rfl,rfl,rfl,rfl,rfl⟩
  · exact ⟨_,rfl,asksOnly_single nofun nofun,rfl,rfl,rfl,rfl,rfl,rfl⟩

theorem request_turned {pkt : PktMsg} {junk : Bytes} {s s' : Session} (ht : pkt.type = .Request)
    (h : s.dispatch pkt junk = .ok s') : Turned pkt s s' := by
  obtain ⟨k,nbr,_,s₁,h₁,rfl⟩ := dispatch_request ht h
  have hne : pkt.type ≠ .Piece := by
    rw [ht]
    exact nofun
  obtain ⟨new,hout,hasks,hconn,hnmap,hheld,hshape⟩ := answerRequest_sent h₁
  replace hconn : s₁.conn = s.conn := hconn
  replace hout : s₁.out = s.out ++ new := hout
  have hmarks : s₁.nmap.bfield = s.nmap.bfield := by rw [hnmap]; rfl
  by_cases hc : (!s₁.conn.chokedNode) = true
  · rw [if_pos hc]
    have hreqs : AsksOnly s.conn.reqs (s₁.conn.reqs.keys.map requestPkt) := by
      rw [hconn]
      exact asksOnly_requests _
    refine Turned.of_sends hne ⟨?_,?_,?_,hshape⟩ hheld hmarks ?_ ?_ ?_
      (new ++ s₁.conn.reqs.keys.map requestPkt) ?_ (hasks.append hreqs)
    all_goals simp only [sendRequests,hconn,hout,List.append_assoc]
  · rw [if_neg hc]
    exact Turned.of_sends hne ⟨by rw [hconn],by rw [hconn],by rw [hconn],hshape⟩ hheld hmarks
      (by rw [hconn]) (by rw [hconn]) (by rw [hconn]) new hout hasks

theorem dispatch_turned {pkt : PktMsg} {junk : Bytes} {s s' : Session} (ht : pkt.type ≠ .BitField)
    (h : s.dispatch pkt junk = .ok s') : Turned pkt s s' := by
  have hkeep := h
  unfold dispatch at h
  cases hty : pkt.type with
  | Handshake =>
    simp only [hty] at h
    cases h
    have hne : pkt.type ≠ .Piece := by
      rw [hty]
      exact nofun
    by_cases hc : s.conn.client = true
    · simp only [if_pos hc]
      exact Turned.of_sends hne ⟨rfl,rfl,rfl,rfl,rfl,rfl⟩ rfl rfl rfl rfl rfl _ rfl
        (asksOnly_single nofun nofun)
    · simp only [if_neg hc]
      exact Turned.of_sends hne ⟨rfl,rfl,rfl,rfl,rfl,rfl⟩ rfl rfl rfl rfl rfl [] (by simp)
        (asksOnly_nil _)
  | Choke =>
    simp only [hty] at h
    cases h
    exact Turned.of_sends (by rw [hty]; exact nofun) ⟨rfl,rfl,rfl,rfl,rfl,rfl⟩ rfl rfl rfl rfl rfl []
      (by simp) (asksOnly_nil _)
  | UnChoke =>
    simp only [hty] at h
    cases h
    exact Turned.of_sends (by rw [hty]; exact nofun) ⟨rfl,rfl,rfl,rfl,rfl,rfl⟩ rfl rfl rfl rfl rfl _
      rfl (asksOnly_requests _)
  | Interested =>
    simp only [hty] at h
    obtain ⟨⟨k,nbr⟩,_,h⟩ := Outcome.bind_eq_ok.mp h
    cases h
    exact Turned.of_sends (by rw [hty]; exact nofun) ⟨rfl,rfl,rfl,rfl,rfl,rfl⟩ rfl rfl rfl rfl rfl []
      (by simp [setNbr]) (asksOnly_nil _)
  | NotInterested =>
    simp only [hty] at h
    obtain ⟨⟨k,nbr⟩,_,h⟩ := Outcome.bind_eq_ok.mp h
    cases h
    exact Turned.of_sends (by rw [hty]; exact nofun) ⟨rfl,rfl,rfl,rfl,rfl,rfl⟩ rfl rfl rfl rfl rfl []
      (by simp [setNbr]) (asksOnly_nil _)
  | Have =>
    simp only [hty] at h
    cases h
    exact handleHave_turned s (by rw [hty]; exact nofun)
  | BitField => exact absurd hty ht
  | Request => exact request_turned hty hkeep
  | Piece =>
    simp only [hty] at h
    exact handlePiece_turned hty h
  | Unnamed c hc =>
    simp only [hty] at h
    cases h

/-- A turn of the loop on a packet that is no bitfield. -/
theorem handle_turned {pkt : PktMsg} {junk : Bytes} {s s' : Session} (ht : pkt.type ≠ .BitField)
    (h : s.handle pkt junk = .ok s') : Turned pkt s s' := by
  obtain ⟨s₁,h₁,h⟩ := Outcome.bind_eq_ok.mp h
  obtain ⟨new,rfl,hnew⟩ := chokeStatusCheck_eq_ok h₁
  obtain ⟨⟨hc,hcp,hp,hshape⟩,hmarks,hdiff,hpeer,hreqs,hheld,hstored,more,hmore,hasks⟩ :=
    dispatch_turned ht h
  refine ⟨⟨hc,hcp,hp,hshape⟩,hmarks,hdiff,hpeer,hreqs,hheld,hstored,new ++ more,?_,?_⟩
  · rw [hmore,List.append_assoc]
  · exact (asksOnly_choke hnew).append hasks

/-! ## The stages of the BitField case -/

theorem mem_setPositions {v : List UInt8} {ij : ℕ × ℕ} :
    ij ∈ setPositions v ↔ ij.2 < 8 ∧ bitAt v (pieceAt ij) = true := by
  obtain ⟨i,j⟩ := ij
  simp only [setPositions,List.mem_filter,mem_positions,decide_eq_true_eq]
  constructor
  · rintro ⟨⟨_,hj⟩,hm⟩
    exact ⟨hj,by rw [pieceAt,bitAt_index v i hj]; exact (and_mask_eq hj).mp hm⟩
  · rintro ⟨hj,hb⟩
    have hlt := lt_of_bitAt hb
    rw [pieceAt,bitAt_index v i hj] at hb
    simp only [pieceAt] at hlt
    exact ⟨⟨by omega,hj⟩,(and_mask_eq hj).mpr hb⟩

theorem mem_diffToReqs {reqs : Reqs} {diff : List UInt8} {q : UInt32} :
    q ∈ diffToReqs reqs diff ↔ q ∈ reqs ∨ ∃ p, bitAt diff p = true ∧ UInt32.ofNat p = q := by
  have hfold : ∀ (l : List (ℕ × ℕ)) (reqs : Reqs),
      q ∈ l.foldl (fun reqs ij => reqs.insert (pcnoAt ij) true) reqs ↔
        q ∈ reqs ∨ ∃ ij ∈ l, pcnoAt ij = q := by
    intro l
    induction l with
    | nil => intro reqs; simp
    | cons ij l ih =>
      intro reqs
      rw [List.foldl_cons,ih,AList.mem_insert,List.exists_mem_cons_iff]
      constructor
      · rintro ((rfl | h) | h)
        · exact Or.inr (Or.inl rfl)
        · exact Or.inl h
        · exact Or.inr (Or.inr h)
      · rintro (h | rfl | h)
        · exact Or.inl (Or.inr h)
        · exact Or.inl (Or.inl rfl)
        · exact Or.inr h
  have hnum : ∀ ij : ℕ × ℕ, pcnoAt ij = UInt32.ofNat (pieceAt ij) := by
    intro ij
    rw [pcnoAt,pieceAt,Nat.mul_comm]
  rw [diffToReqs,hfold]
  apply or_congr_right
  constructor
  · rintro ⟨ij,hij,rfl⟩
    exact ⟨pieceAt ij,(mem_setPositions.mp hij).2,(hnum ij).symm⟩
  · rintro ⟨p,hp,rfl⟩
    obtain ⟨ij,hij,rfl⟩ := exists_position hp
    exact ⟨ij,mem_setPositions.mpr ⟨(mem_positions.mp hij).2,hp⟩,hnum ij⟩

/-- `recvBitField` stores the peer's bitfield, and an acceptor answers with its own. -/
theorem recvBitField_eq (pkt : PktMsg) (s : Session) : s.recvBitField pkt =
    { s with
      conn := { s.conn with bfieldPeer := pkt.bfield.bfield }
      out := s.out ++ if s.conn.client
        then [{ type := .BitField, bfield := ⟨s.ost.bfield.bfield⟩ }] else [] } := by
  cases hc : s.conn.client with
  | true => simp [recvBitField,hc,sendBfield,send,Bfield.clone]
  | false => simp [recvBitField,hc]

theorem answerBitField_true (s : Session) : s.answerBitField true =
    { s with
      conn := { s.conn with reqs := diffToReqs s.conn.reqs s.conn.diff }
      out := s.out ++ { type := .Interested } ::
        if !s.conn.client && !s.conn.chokedNode
          then (diffToReqs s.conn.reqs s.conn.diff).keys.map requestPkt else [] } := by
  cases hc : (!s.conn.client && !s.conn.chokedNode) with
  | true => simp [answerBitField,sendInterested,send,sendRequests,hc]
  | false => simp [answerBitField,sendInterested,send,hc]

/-- Everything the end of the BitField case does. -/
theorem answerBitField_spec (interested : Bool) (s : Session) :
    (s.answerBitField interested).ost = s.ost ∧ (s.answerBitField interested).nmap = s.nmap ∧
      (s.answerBitField interested).conn =
        { s.conn with
          reqs := if interested then diffToReqs s.conn.reqs s.conn.diff else s.conn.reqs } ∧
      ∃ new, (s.answerBitField interested).out = s.out ++ new ∧
        AsksOnly (s.answerBitField interested).conn.reqs new := by
  cases interested with
  | false => exact ⟨rfl,rfl,rfl,_,rfl,asksOnly_single nofun nofun⟩
  | true =>
    rw [answerBitField_true]
    refine ⟨rfl,rfl,rfl,_,rfl,?_⟩
    have hint : AsksOnly (diffToReqs s.conn.reqs s.conn.diff) [{ type := .Interested }] :=
      asksOnly_single nofun nofun
    by_cases hc : (!s.conn.client && !s.conn.chokedNode) = true
    · rw [if_pos hc]
      exact hint.append (asksOnly_requests _)
    · rw [if_neg hc]
      exact hint

/-- A request new in `reqs` is a bit of `diff`. -/
theorem mem_answerBitField_reqs {interested : Bool} {s : Session} {q : UInt32}
    (h : q ∈ (s.answerBitField interested).conn.reqs) :
    q ∈ s.conn.reqs ∨ ∃ p, bitAt s.conn.diff p = true ∧ UInt32.ofNat p = q := by
  rw [(answerBitField_spec interested s).2.2.1] at h
  cases interested with
  | false => exact Or.inl h
  | true => exact mem_diffToReqs.mp h

/-- The BitField case is `recvBitField`, `earmark` and `answerBitField`. -/
theorem dispatch_bitField {pkt : PktMsg} {junk : Bytes} (s : Session) (ht : pkt.type = .BitField) :
    s.dispatch pkt junk = (do
      let (interested,diff,nmap) ← s.nmap.earmark s.ost.bfield pkt.bfield.bfield s.conn.diff
      return ({ s.recvBitField pkt with nmap, conn := { (s.recvBitField pkt).conn with diff } } :
        Session).answerBitField interested) := by
  simp only [dispatch,ht,recvBitField_eq]

end Session
end BTRx
