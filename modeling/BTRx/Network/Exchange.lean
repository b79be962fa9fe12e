import BTRx.Base.Exchange
import BTRx.Node.Store
import BTRx.ObjStore.Room

/-! # Two handlers that exchange their pieces

The handlers of one connection, with no one choked and no timeouts. Deliveries from the
two channels interleave. A delivery whose cache access returns answers a Request with its
piece and all own requests, and stores a Piece; it is a step of the abstract exchange, so
that there are finitely many of them and the exchange ends with nothing left. Where the
cache has an entry for every piece, every access returns.
-/
namespace BTRx
open Memory ByteSet LittleEndian Transition

namespace ObjStore
variable {s s' : ObjStore} {p : UInt32}

def Holds (s : ObjStore) (p : UInt32) : Prop := s.bfield.exists (toInt p.toNat) = .ok true

/-- The bitfield has a bit for the piece. -/
def Places (s : ObjStore) (p : UInt32) : Prop := ∃ r, s.bfield.exists (toInt p.toNat) = .ok r

theorem places_iff : s.Places p ↔ toInt p.toNat = p.toNat ∧ p.toNat < 8 * s.bfield.bfield.length := by
  constructor
  · rintro ⟨r,h⟩
    obtain ⟨q,hq,hlt,_⟩ := Bfield.exists_eq_ok.mp h
    have hp : toInt (p.toNat : ℤ) = p.toNat :=
      toInt_of_nonneg (by omega) (by exact_mod_cast p.toNat_lt) (by omega)
    have hqp : q = p.toNat := by omega
    exact ⟨hp,hqp ▸ hlt⟩
  · rintro ⟨hp,hlt⟩
    exact ⟨_,by rw [hp,Bfield.exists_of_lt hlt]⟩

theorem holds_iff : s.Holds p ↔ s.Places p ∧ bitAt s.bfield.bfield p.toNat = true := by
  constructor
  · intro h
    have hp : s.Places p := ⟨true,h⟩
    obtain ⟨hint,hlt⟩ := places_iff.mp hp
    rw [Holds,hint,Bfield.exists_of_lt hlt] at h
    exact ⟨hp,Except.ok.inj h⟩
  · rintro ⟨hp,hbit⟩
    obtain ⟨hint,hlt⟩ := places_iff.mp hp
    rw [Holds,hint,Bfield.exists_of_lt hlt,hbit]

/-- No bit is lost. -/
structure Grows (s s' : ObjStore) : Prop where
  places : ∀ p, s.Places p → s'.Places p
  holds : ∀ p, s.Holds p → s'.Holds p

theorem Grows.of_bfield (h : s'.bfield = s.bfield) : s.Grows s' := by
  constructor
  · intro p hp
    rwa [Places,h]
  · intro p hp
    rwa [Holds,h]

theorem grows_setAt (cache : Cache) {k : ℕ} (hk : k < 8 * s.bfield.bfield.length) :
    s.Grows { s with cache, bfield := ⟨setAt s.bfield.bfield k⟩ } := by
  have hplaces : ∀ p, s.Places p → Places { s with cache, bfield := ⟨setAt s.bfield.bfield k⟩ } p := by
    intro p hp
    rw [places_iff] at hp ⊢
    simpa using hp
  refine ⟨hplaces,fun p hp => ?_⟩
  rw [holds_iff] at hp ⊢
  refine ⟨hplaces p hp.1,?_⟩
  exact bitAt_setAt_of_bitAt hk hp.2

/-- A store that calls can lead to. -/
def Reached (s : ObjStore) : Prop := ∃ fsz pcsz s₀ hasfile disk hist,
  ObjStore.new fsz pcsz (npcsOf fsz pcsz) = .ok s₀ ∧ Run (ExecStep call) (s₀.bfieldInit hasfile disk) hist s

theorem Reached.addressed (h : s.Reached) : s.cache.Addressed := by
  obtain ⟨fsz,pcsz,s₀,hasfile,disk,hist,hnew,run⟩ := h
  have hstart : (s₀.bfieldInit hasfile disk).cache.Addressed := by
    obtain ⟨_,rfl⟩ := new_eq_ok.mp hnew
    exact fun a ha => absurd ha List.not_mem_nil
  refine run.preserves (P := fun s => s.cache.Addressed) hstart fun t l u ht last => ?_
  rcases call_cases last with ⟨rfl,_⟩ | ⟨p,buf,c,_,_,_,hget,rfl⟩ | ⟨p,piece,c,_,_,_,hput,rfl⟩
  · exact ht
  · exact ht.get hget
  · exact ht.put hput

theorem Reached.call (h : s.Reached) {x : StoreCall} {r : ℕ × List Cell} (hx : s.call x = .ok (r,s')) :
    s'.Reached := by
  obtain ⟨fsz,pcsz,s₀,hasfile,disk,hist,hnew,run⟩ := h
  have hlast : ExecStep ObjStore.call s (x,r) s' := hx
  exact ⟨fsz,pcsz,s₀,hasfile,disk,_,hnew,run.tail hlast⟩

theorem Reached.roomy (h : s.Reached) (hroom : s.HasRoom) : s.cache.Roomy s.starts := by
  obtain ⟨fsz,pcsz,s₀,hasfile,disk,hist,hnew,run⟩ := h
  exact roomy_run hnew run hroom

/-- The access to the cache that a packet leads to, if any, returns. -/
def Serves (s : ObjStore) (pkt : PktMsg) : Prop :=
  (pkt.type = .Request → s.cache.CanGet (s.cache.getPos pkt.req.pcno.toNat)) ∧
  (pkt.type = .Piece → ¬ s.Holds pkt.piece.pcno → 0 ≤ s.cache.getPos pkt.piece.pcno.toNat ∧
    s.cache.CanPut (s.cache.getPos pkt.piece.pcno.toNat))

end ObjStore

namespace Session
variable {s s' : Session} {pkt : PktMsg} {junk : Bytes}

/-- The handler has a neighbour, and neither of the two is choked. -/
structure Unchoked (s : Session) : Prop where
  node : s.conn.chokedNode = false
  peer : s.conn.chokedPeer = false
  nbr : ∃ k nbr, s.nbrAt = .ok (k,nbr) ∧ nbr.choked = false

theorem Unchoked.chokeStatusCheck (h : s.Unchoked) : s.chokeStatusCheck s.conn.chokedPeer = .ok s := by
  obtain ⟨k,nbr,hn,hc⟩ := h.nbr
  unfold Session.chokeStatusCheck
  split
  · rfl
  · simp [hn,hc,h.peer]

theorem nbrAt_setNbr {k : ℕ} {nbr nbr' : Nbr} (h : s.nbrAt = .ok (k,nbr)) :
    (s.setNbr k nbr').nbrAt = .ok (k,nbr') := by
  unfold nbrAt at h
  split at h
  · cases h
  · rename_i k' hk'
    split at h
    · rename_i old hold
      cases h
      simp [nbrAt,setNbr,hk',(List.getElem?_eq_some_iff.mp hold).1]
    · cases h

/-- A packet of an exchange: a request of a piece that is held, or a piece that has a bit. -/
def Expects (s : Session) (pkt : PktMsg) : Prop :=
  pkt.type = .Request ∧ s.ost.Holds pkt.req.pcno ∨ pkt.type = .Piece ∧ s.ost.Places pkt.piece.pcno

/-- A store with room serves every such packet. -/
theorem Expects.served (hpkt : s.Expects pkt) (h : s.ost.Reached) (hroom : s.ost.HasRoom) :
    s.ost.Serves pkt := by
  have hc := h.roomy hroom
  rcases hpkt with ⟨ht,hp⟩ | ⟨ht,hp⟩
  · have hlt := (ObjStore.places_iff.mp (ObjStore.holds_iff.mp hp).1).2
    exact ⟨fun _ => hc.canGet (ObjStore.getPos_mem_starts hlt),fun ht' => by simp [ht] at ht'⟩
  · have hlt := (ObjStore.places_iff.mp hp).2
    exact ⟨fun ht' => by simp [ht] at ht',
      fun _ _ => ⟨hroom.getPos_nonneg hlt,hc.canPut (ObjStore.getPos_mem_starts hlt)⟩⟩

/-- A handler that is ready for such packets. -/
structure Able (s : Session) : Prop where
  unchoked : s.Unchoked
  addressed : s.ost.cache.Addressed

/-- A Request is answered with its piece and with all requests of the node. -/
theorem Unchoked.request (h : s.Unchoked) (ht : pkt.type = .Request) (hp : s.ost.Holds pkt.req.pcno)
    (junk : Bytes) :
    ∃ k nbr, s.nbrAt = .ok (k,nbr) ∧ nbr.choked = false ∧ s.handle pkt junk = (do
      let (buf,cache) ← s.ost.cache.get pkt.req.pcno.toNat
      return { s with
        ost := { s.ost with cache }
        nmap := (s.setNbr k { nbr with requests := nbr.requests + 1 }).nmap
        out := s.out ++ { type := .Piece, piece := ⟨pkt.req.pcno,cString buf junk⟩ } ::
          s.conn.reqs.keys.map requestPkt }) := by
  obtain ⟨k,nbr,hn,hc⟩ := h.nbr
  obtain ⟨hplaces,hbit⟩ := ObjStore.holds_iff.mp hp
  obtain ⟨hint,hlt⟩ := ObjStore.places_iff.mp hplaces
  refine ⟨k,nbr,hn,hc,?_⟩
  have hpiece := ObjStore.getPiece_of_held hlt hbit
  rw [handle,h.chokeStatusCheck,Outcome.ok_bind]
  unfold dispatch
  simp only [ht,hn,Outcome.ok_bind,answerRequest,setNbr,h.peer,sendPiece,hint,hpiece]
  cases s.ost.cache.get pkt.req.pcno.toNat with
  | error f => rfl
  | ok r => simp [h.node,send,sendRequests]

/-- A Piece is not wanted any more. -/
theorem Unchoked.piece_of_held (h : s.Unchoked) (ht : pkt.type = .Piece) (hp : s.ost.Holds pkt.piece.pcno) :
    s.handle pkt junk = .ok { s with conn := { s.conn with reqs := s.conn.reqs.erase pkt.piece.pcno } } := by
  obtain ⟨hplaces,hbit⟩ := ObjStore.holds_iff.mp hp
  obtain ⟨hint,hlt⟩ := ObjStore.places_iff.mp hplaces
  rw [handle,h.chokeStatusCheck,Outcome.ok_bind]
  unfold dispatch
  simp only [ht,handlePiece,hint,ObjStore.addPiece_of_held hlt hbit,Outcome.ok_bind,Outcome.pure_eq]

/-- One that is not held is stored. -/
theorem Unchoked.piece_of_missing (h : s.Unchoked) (ht : pkt.type = .Piece)
    (hp : s.ost.Places pkt.piece.pcno) (hmiss : ¬ s.ost.Holds pkt.piece.pcno) :
    s.handle pkt junk = (do
      let cache ← s.ost.cache.put pkt.piece.pcno.toNat (s.pieceBuf pkt)
      return { s with
        ost := { s.ost with cache, bfield := ⟨setAt s.ost.bfield.bfield pkt.piece.pcno.toNat⟩ }
        conn := { s.conn with reqs := s.conn.reqs.erase pkt.piece.pcno } }) := by
  obtain ⟨hint,hlt⟩ := ObjStore.places_iff.mp hp
  have hbit : bitAt s.ost.bfield.bfield pkt.piece.pcno.toNat = false := by
    rw [ObjStore.holds_iff,not_and] at hmiss
    simpa using hmiss hp
  rw [handle,h.chokeStatusCheck,Outcome.ok_bind]
  unfold dispatch
  simp only [ht,handlePiece,hint,ObjStore.addPiece_of_missing hlt hbit,pieceBuf]
  cases s.ost.cache.put pkt.piece.pcno.toNat _ <;> rfl

/-- A delivery returns exactly when the cache access it leads to does. -/
theorem Able.returns_iff (h : s.Able) (hpkt : s.Expects pkt) (junk : Bytes) :
    (∃ s', s.handle pkt junk = .ok s') ↔ s.ost.Serves pkt := by
  rcases hpkt with ⟨ht,hp⟩ | ⟨ht,hp⟩
  · obtain ⟨k,nbr,_,_,hrun⟩ := h.unchoked.request ht hp junk
    have hserves : s.ost.Serves pkt ↔ s.ost.cache.CanGet (s.ost.cache.getPos pkt.req.pcno.toNat) := by
      simp [ObjStore.Serves,ht]
    rw [hserves,← Cache.get_returns_iff h.addressed,hrun]
    constructor
    · rintro ⟨s',hs'⟩
      obtain ⟨⟨out,c'⟩,hget,_⟩ := Outcome.bind_eq_ok.mp hs'
      exact ⟨out,c',hget⟩
    · rintro ⟨out,c',hget⟩
      rw [hget]
      exact ⟨_,rfl⟩
  · by_cases hheld : s.ost.Holds pkt.piece.pcno
    · rw [h.unchoked.piece_of_held ht hheld]
      simp [ObjStore.Serves,ht,hheld]
    · have hserves : s.ost.Serves pkt ↔ 0 ≤ s.ost.cache.getPos pkt.piece.pcno.toNat ∧
          s.ost.cache.CanPut (s.ost.cache.getPos pkt.piece.pcno.toNat) := by
        simp [ObjStore.Serves,ht,hheld]
      rw [hserves,← Cache.put_returns_iff h.addressed (s.pieceBuf pkt),
        h.unchoked.piece_of_missing ht hp hheld]
      constructor
      · rintro ⟨s',hs'⟩
        obtain ⟨c',hput,_⟩ := Outcome.bind_eq_ok.mp hs'
        exact ⟨c',hput⟩
      · rintro ⟨c',hput⟩
        rw [hput]
        exact ⟨_,rfl⟩

/-- What a delivery does to the requests of the receiver and to what it has sent. -/
inductive Delivered (s : Session) (pkt : PktMsg) (s' : Session) : Prop
  | request (payload : Bytes) (type : pkt.type = .Request) (reqs : s'.conn.reqs = s.conn.reqs)
    (out : s'.out = s.out ++ { type := .Piece, piece := ⟨pkt.req.pcno,payload⟩ } ::
      s.conn.reqs.keys.map requestPkt)
  | piece (type : pkt.type = .Piece) (reqs : s'.conn.reqs = s.conn.reqs.erase pkt.piece.pcno)
    (out : s'.out = s.out)

theorem Able.delivered (h : s.Able) (hpkt : s.Expects pkt) (hs : s.handle pkt junk = .ok s') :
    s'.Able ∧ s.ost.Grows s'.ost ∧ s.Delivered pkt s' := by
  rcases hpkt with ⟨ht,hp⟩ | ⟨ht,hp⟩
  · obtain ⟨k,nbr,hn,hc,hrun⟩ := h.unchoked.request ht hp junk
    rw [hrun] at hs
    obtain ⟨⟨buf,cache⟩,hget,hs⟩ := Outcome.bind_eq_ok.mp hs
    cases hs
    refine ⟨⟨⟨h.unchoked.node,h.unchoked.peer,k,_,nbrAt_setNbr hn,hc⟩,h.addressed.get hget⟩,?_,?_⟩
    · exact ObjStore.Grows.of_bfield rfl
    · exact .request _ ht rfl rfl
  · by_cases hheld : s.ost.Holds pkt.piece.pcno
    · rw [h.unchoked.piece_of_held ht hheld] at hs
      cases hs
      exact ⟨⟨⟨h.unchoked.node,h.unchoked.peer,h.unchoked.nbr⟩,h.addressed⟩,ObjStore.Grows.of_bfield rfl,
        .piece ht rfl rfl⟩
    · rw [h.unchoked.piece_of_missing ht hp hheld] at hs
      obtain ⟨cache,hput,hs⟩ := Outcome.bind_eq_ok.mp hs
      cases hs
      exact ⟨⟨⟨h.unchoked.node,h.unchoked.peer,h.unchoked.nbr⟩,h.addressed.put hput⟩,
        ObjStore.grows_setAt cache (ObjStore.places_iff.mp hp).2,.piece ht rfl rfl⟩

end Session

/-- The two handlers; what a side has sent and the other has not received stands in its
`out`, oldest first. -/
abbrev Pair := Bool → Session

namespace Pair
open Session
variable {x t u : Pair} {b : Bool} {junk : Bytes}

/-- Side `l.1` handles the first packet of the other side, with `l.2` behind the buffer. -/
def deliver (x : Pair) (l : Bool × Bytes) : Except Refusal Pair :=
  match (x !l.1).out with
  | [] => .error .disabled
  | pkt :: rest => do
    let s ← ((x l.1).handle pkt l.2).mapError Refusal.fault
    return Function.update (Function.update x (!l.1) { x (!l.1) with out := rest }) l.1 s

def Step (x : Pair) (l : Bool × Bytes) (x' : Pair) : Prop := x.deliver l = .ok x'

/-- Side `b` may ask for a piece: the other side holds it, and it has a bit on both sides. -/
def Asks (x : Pair) (b : Bool) (p : UInt32) : Prop := (x !b).ost.Holds p ∧ (x b).ost.Places p

/-- Only side `c` has sent something, the requests of `send_requests`. -/
structure Opening (x : Pair) (c : Bool) : Prop where
  unchoked : ∀ b, (x b).Unchoked
  stores : ∀ b, (x b).ost.Reached
  wants : ∀ b, ∀ p ∈ (x b).conn.reqs, x.Asks b p
  first : ∃ s : Session, s.out = [] ∧ x c = s.sendRequests
  second : (x !c).out = []

/-- There are finitely many deliveries, and if side `c` wants something the two sides end
with nothing that is wanted or on its way. -/
structure Quiesces (x : Pair) (c : Bool) : Prop where
  finite : ∃ n, ∀ hist t, Run Step x hist t → hist.length ≤ n
  quiet : (x c).conn.reqs ≠ ∅ → ∀ hist t, Run Step x hist t → (∀ l u, ¬ t.Step l u) →
    ∀ b, (t b).conn.reqs = ∅ ∧ (t b).out = []

/-- The next packet of each side is handled to the end: no cache access of its handling fails. -/
def Served (x : Pair) : Prop := ∀ b pkt rest, (x !b).out = pkt :: rest → (x b).ost.Serves pkt

theorem step_cases {l : Bool × Bytes} (h : x.Step l u) : ∃ pkt rest,
    (x !l.1).out = pkt :: rest ∧ (x l.1).handle pkt l.2 = .ok (u l.1) ∧
    u (!l.1) = { x (!l.1) with out := rest } := by
  simp only [Step,deliver] at h
  split at h
  · cases h
  · rename_i pkt rest hout
    obtain ⟨s,hs,h⟩ := Outcome.bind_eq_ok.mp h
    cases h
    refine ⟨pkt,rest,hout,?_,?_⟩
    · rw [Outcome.mapError_eq_ok] at hs
      simpa using hs
    · simp

theorem step_of_handle {pkt : PktMsg} {rest : List PktMsg} {s : Session} (hout : (x !b).out = pkt :: rest)
    (hs : (x b).handle pkt junk = .ok s) : ∃ u, x.Step (b,junk) u := by
  have hx : x.deliver (b,junk) =
      .ok (Function.update (Function.update x (!b) { x (!b) with out := rest }) b s) := by
    simp only [deliver,hout,hs]
    rfl
  exact ⟨_,hx⟩

/-! ## The invariant -/

/-- A packet as a message of the abstract exchange. -/
def message (pkt : PktMsg) : Exchange.Msg UInt32 :=
  if pkt.type = .Request then .ask pkt.req.pcno else .answer pkt.piece.pcno

def toExchange (x : Pair) : Exchange.State UInt32 := fun b =>
  ⟨(x b).conn.reqs.keys.toFinset,(x b).out.map message⟩

structure Sound (x : Pair) : Prop where
  able : ∀ b, (x b).Able
  wants : ∀ b, ∀ p ∈ (x b).conn.reqs, x.Asks b p
  sent : ∀ b, ∀ pkt ∈ (x b).out, pkt.type = .Request ∧ x.Asks b pkt.req.pcno ∨
    pkt.type = .Piece ∧ x.Asks (!b) pkt.piece.pcno

theorem Sound.expects (h : x.Sound) {pkt : PktMsg} (hpkt : pkt ∈ (x !b).out) : (x b).Expects pkt := by
  rcases h.sent (!b) pkt hpkt with ⟨ht,hask⟩ | ⟨ht,hask⟩
  · refine Or.inl ⟨ht,?_⟩
    simpa using hask.1
  · refine Or.inr ⟨ht,?_⟩
    simpa using hask.2

theorem Asks.grows (hg : ∀ b, (x b).ost.Grows (u b).ost) {p : UInt32} (h : x.Asks b p) : u.Asks b p :=
  ⟨(hg _).holds p h.1,(hg b).places p h.2⟩

theorem message_requests (reqs : Reqs) :
    (reqs.keys.map requestPkt).map message = reqs.keys.map Exchange.Msg.ask := by
  rw [List.map_map]
  exact List.map_congr_left fun p _ => rfl

theorem keys_erase (reqs : Reqs) (p : UInt32) :
    (reqs.erase p).keys.toFinset = reqs.keys.toFinset.erase p := by
  ext q
  simp only [List.mem_toFinset,Finset.mem_erase,← AList.mem_keys,AList.mem_erase]

theorem wants_eq_empty {x : Pair} {b : Bool} : (x.toExchange b).wants = ∅ ↔ (x b).conn.reqs = ∅ := by
  rw [toExchange,List.toFinset_eq_empty_iff]
  constructor
  · intro h
    exact AList.ext (List.map_eq_nil_iff.mp h)
  · intro h
    rw [h,AList.keys_empty]

theorem Sound.step (h : x.Sound) {l : Bool × Bytes} (hs : x.Step l u) :
    u.Sound ∧ Exchange.Step x.toExchange l.1 u.toExchange := by
  obtain ⟨b,junk⟩ := l
  obtain ⟨pkt,rest,hout,hrun,hother⟩ := step_cases hs
  simp only at hout hrun hother
  have hpkt : pkt ∈ (x !b).out := by
    rw [hout]
    exact List.mem_cons_self
  obtain ⟨hable,hgrow,hdel⟩ := (h.able b).delivered (h.expects hpkt) hrun
  have hgrows : ∀ c, (x c).ost.Grows (u c).ost := by
    rw [Bool.forall_bool' b]
    exact ⟨hgrow,by rw [hother]; exact ObjStore.Grows.of_bfield rfl⟩
  have hmap : ∀ c, ∀ q ∈ (x c).out, q.type = .Request ∧ u.Asks c q.req.pcno ∨
      q.type = .Piece ∧ u.Asks (!c) q.piece.pcno := fun c q hq =>
    (h.sent c q hq).imp (And.imp_right (Asks.grows hgrows)) (And.imp_right (Asks.grows hgrows))
  refine ⟨⟨?_,?_,?_⟩,?_⟩
  · rw [Bool.forall_bool' b,hother]
    have hable' := h.able !b
    exact ⟨hable,⟨hable'.unchoked.node,hable'.unchoked.peer,hable'.unchoked.nbr⟩,hable'.addressed⟩
  · rw [Bool.forall_bool' b,hother]
    refine ⟨fun p hp => (h.wants b p ?_).grows hgrows,fun p hp => (h.wants _ p hp).grows hgrows⟩
    cases hdel with
    | request _ _ hreqs _ => rwa [hreqs] at hp
    | piece _ hreqs _ =>
      rw [hreqs,AList.mem_erase] at hp
      exact hp.2
  · rw [Bool.forall_bool' b]
    constructor
    · intro q hq
      cases hdel with
      | piece _ _ hout' =>
        rw [hout'] at hq
        exact hmap b q hq
      | request payload ht _ hout' =>
        rw [hout',List.mem_append,List.mem_cons] at hq
        rcases hq with hq | rfl | hq
        · exact hmap b q hq
        · rcases hmap (!b) pkt hpkt with ⟨_,hask⟩ | ⟨ht',_⟩
          · exact Or.inr ⟨rfl,hask⟩
          · rw [ht] at ht'
            cases ht'
        · obtain ⟨p,hp,rfl⟩ := List.mem_map.mp hq
          exact Or.inl ⟨rfl,(h.wants b p hp).grows hgrows⟩
    · intro q hq
      rw [hother] at hq
      exact hmap (!b) q (by rw [hout]; exact List.mem_cons_of_mem _ hq)
  · cases hdel with
    | request payload ht hreqs hout' =>
      refine .ask pkt.req.pcno (rest.map message) (x b).conn.reqs.keys ?_ ?_ (AList.keys_nodup _) rfl ?_
      · simp [toExchange,hout,message,ht]
      · simp [toExchange,hother]
      · simp only [toExchange,hreqs,hout',List.map_append,List.map_cons,message_requests]
        rfl
    | piece ht hreqs hout' =>
      refine .answer pkt.piece.pcno (rest.map message) ?_ ?_ ?_
      · simp [toExchange,hout,message,ht]
      · simp [toExchange,hother]
      · simp only [toExchange,hreqs,hout',keys_erase]

/-! ## The exchange ends -/

theorem Opening.sound {c : Bool} (h : x.Opening c) : x.Sound := by
  refine ⟨fun b => ⟨h.unchoked b,(h.stores b).addressed⟩,h.wants,?_⟩
  obtain ⟨s,hs,hxc⟩ := h.first
  rw [Bool.forall_bool' c,h.second]
  refine ⟨fun pkt hpkt => ?_,fun pkt hpkt => absurd hpkt List.not_mem_nil⟩
  rw [hxc,sendRequests,hs] at hpkt
  obtain ⟨p,hp,rfl⟩ := List.mem_map.mp hpkt
  exact Or.inl ⟨rfl,h.wants c p (by rwa [hxc])⟩

theorem Opening.out_eq_nil {c : Bool} (h : x.Opening c) (hne : (x c).conn.reqs = ∅) (b : Bool) :
    (x b).out = [] := by
  obtain ⟨s,hs,hxc⟩ := h.first
  have hc : (x c).out = [] := by
    have hreqs : s.conn.reqs = ∅ := by rwa [hxc] at hne
    rw [hxc,sendRequests,hs,hreqs,AList.keys_empty]
    rfl
  have hall : ∀ d, (x d).out = [] := by
    rw [Bool.forall_bool' c]
    exact ⟨hc,h.second⟩
  exact hall b

theorem Opening.started {c : Bool} (h : x.Opening c) (hne : (x c).conn.reqs ≠ ∅) :
    Exchange.Started x.toExchange c := by
  obtain ⟨s,hs,hxc⟩ := h.first
  have hsent : (x.toExchange c).sent = s.conn.reqs.keys.map .ask := by
    simp only [toExchange,hxc,sendRequests,hs,List.nil_append,message_requests]
  apply Exchange.started_of_asks
  · intro k hk
    simp only [toExchange,hxc,sendRequests,List.mem_toFinset] at hk
    rw [hsent]
    exact List.mem_map_of_mem hk
  · rw [Finset.nonempty_iff_ne_empty,Ne,wants_eq_empty]
    exact hne

/-- The deliveries are steps of the abstract exchange. -/
theorem Sound.run (h : x.Sound) {hist : List (Pair × Bool × Bytes)} (run : Run Step x hist t) :
    t.Sound ∧ Run Exchange.Step x.toExchange (hist.map fun e => (e.1.toExchange,e.2.1)) t.toExchange :=
  run.simulate toExchange Prod.fst h fun _ _ _ hs last => hs.step last

theorem Sound.length_add_le (h : x.Sound) {hist : List (Pair × Bool × Bytes)} (run : Run Step x hist t) :
    hist.length + Exchange.total t.toExchange ≤ Exchange.total x.toExchange := by
  simpa only [List.length_map] using Exchange.length_add_total_le (h.run run).2

/-- A side whose next packet is served can take it. -/
theorem Sound.out_eq_nil (h : x.Sound) (hserved : x.Served) (hfinal : ∀ l u, ¬ x.Step l u) (b : Bool) :
    (x b).out = [] := by
  cases hout : (x b).out with
  | nil => rfl
  | cons pkt rest =>
    rw [← Bool.not_not b] at hout
    have hpkt : pkt ∈ (x !!b).out := by
      rw [hout]
      exact List.mem_cons_self
    obtain ⟨s,hs⟩ := ((h.able !b).returns_iff (h.expects hpkt) []).mpr (hserved (!b) pkt rest hout)
    obtain ⟨u,hu⟩ := step_of_handle hout hs
    exact absurd hu (hfinal _ u)

/-- A packet that is not served stays where it is, whatever the other side does. -/
theorem Sound.stuck {x₀ : Pair} (h₀ : x₀.Sound) {hist : List (Pair × Bool × Bytes)}
    (run : Run Step x₀ hist t) {b : Bool} {pkt : PktMsg} {rest : List PktMsg}
    (hout : (t !b).out = pkt :: rest) (hno : ¬ (t b).ost.Serves pkt) :
    ∃ hist' u, Run Step x₀ hist' u ∧ (∀ l v, ¬ u.Step l v) ∧ (u !b).out ≠ [] := by
  induction hn : Exchange.total t.toExchange using Nat.strong_induction_on generalizing hist t rest with
  | _ n ih =>
    by_cases hfinal : ∀ l v, ¬ t.Step l v
    · exact ⟨hist,t,run,hfinal,by rw [hout]; exact List.cons_ne_nil _ _⟩
    · push Not at hfinal
      obtain ⟨⟨d,junk⟩,v,hv⟩ := hfinal
      have ht := (h₀.run run).1
      have hlt := (ht.step hv).2.total_lt
      obtain ⟨q,rest',hq,hrun,hother⟩ := step_cases hv
      simp only at hq hrun hother
      have hpkt : q ∈ (t !d).out := by
        rw [hq]
        exact List.mem_cons_self
      by_cases hd : d = b
      · subst hd
        rw [hout] at hq
        cases hq
        exact absurd (((ht.able d).returns_iff (ht.expects hpkt) junk).mp ⟨_,hrun⟩) hno
      · obtain rfl : d = !b := Bool.eq_not.mpr hd
        rw [Bool.not_not] at hother
        obtain ⟨_,_,hdel⟩ := (ht.able !b).delivered (ht.expects hpkt) hrun
        obtain ⟨more,hmore⟩ : ∃ more, (v !b).out = pkt :: more := by
          cases hdel with
          | request _ _ _ hout' => exact ⟨_,by rw [hout',hout]; rfl⟩
          | piece _ _ hout' => exact ⟨rest,by rw [hout',hout]⟩
        exact ih _ (hn ▸ hlt) (run.tail hv) hmore (by rw [hother]; exact hno) rfl

/-- Deliveries are finitely many, and where each of them is handled to the end, nothing is left. -/
theorem Opening.quiesces_of_served {c : Bool} (hx : x.Opening c)
    (h : ∀ hist t, Run Step x hist t → t.Served) : x.Quiesces c := by
  refine ⟨⟨_,fun hist t run => Nat.le_of_add_right_le (hx.sound.length_add_le run)⟩,
    fun hne hist t run hfinal => ?_⟩
  obtain ⟨hsound,habs⟩ := hx.sound.run run
  have hsent := hsound.out_eq_nil (h hist t run) hfinal
  have hwants := ((hx.started hne).run habs).wants_eq_empty fun d => by simp [toExchange,hsent d]
  exact fun b => ⟨wants_eq_empty.mp (hwants b),hsent b⟩

/-- The exchange comes to its end exactly when every packet that becomes the next one in some
order of the deliveries is handled to the end. -/
theorem quiesces_iff {c : Bool} (hx : x.Opening c) :
    x.Quiesces c ↔ ∀ hist t, Run Step x hist t → t.Served := by
  refine ⟨?_,hx.quiesces_of_served⟩
  intro h hist t run b pkt rest hout
  by_contra hno
  obtain ⟨hist',u,run',hfinal,hleft⟩ := hx.sound.stuck run hout hno
  by_cases hne : (x c).conn.reqs = ∅
  · have hsent := hx.out_eq_nil hne
    have hlen := hx.sound.length_add_le run
    have htotal : Exchange.total x.toExchange = 0 := by
      simp [Exchange.total,Exchange.loadOf,Exchange.load,toExchange,hsent]
    obtain rfl : hist = [] := List.length_eq_zero_iff.mp (by omega)
    cases run
    rw [hsent] at hout
    cases hout
  · exact hleft (h.quiet hne hist' u run' hfinal !b).2

/-! ## Stores with room -/

/-- Both stores have been called only, and have an entry for every piece. -/
def Roomy (x : Pair) : Prop := ∀ b, (x b).ost.Reached ∧ (x b).ost.HasRoom

theorem Roomy.step (h : x.Roomy) (hsound : x.Sound) {l : Bool × Bytes} (hs : x.Step l u) : u.Roomy := by
  obtain ⟨b,junk⟩ := l
  obtain ⟨pkt,rest,hout,hrun,hother⟩ := step_cases hs
  simp only at hout hrun hother
  have hexp := hsound.expects (b := b) (by rw [hout]; exact List.mem_cons_self)
  have htype : pkt.type ≠ .BitField := by
    rcases hexp with ⟨ht,_⟩ | ⟨ht,_⟩ <;> simp [ht]
  have hcalls := handle_calls htype hrun
  rw [Roomy,Bool.forall_bool' b,hother]
  refine ⟨?_,h !b⟩
  unfold Calls at hcalls
  split at hcalls
  · rw [hcalls]
    exact h b
  · obtain ⟨r,hr⟩ := hcalls
    exact ⟨(h b).1.call hr,(ObjStore.hasRoom_call hr).mpr (h b).2⟩

/-- With room in both stores everything is handled to the end. -/
theorem Opening.served_of_room {c : Bool} (hx : x.Opening c) (hroom : ∀ b, (x b).ost.HasRoom)
    (hist : List (Pair × Bool × Bytes)) (t : Pair) (run : Run Step x hist t) : t.Served := by
  have hinv : t.Sound ∧ t.Roomy := by
    refine run.preserves (P := fun t => t.Sound ∧ t.Roomy) ⟨hx.sound,fun b => ⟨hx.stores b,hroom b⟩⟩ ?_
    rintro t l u ⟨hsound,hroomy⟩ last
    exact ⟨(hsound.step last).1,hroomy.step hsound last⟩
  intro b pkt rest hout
  have hexp := hinv.1.expects (b := b) (by rw [hout]; exact List.mem_cons_self)
  exact hexp.served (hinv.2 b).1 (hinv.2 b).2

/-- Where both caches have an entry for every piece, the exchange ends whatever the nodes have
stored and read before it, in every order of the deliveries. -/
theorem roomy_quiesces {c : Bool} (hx : x.Opening c) (hroom : ∀ b, (x b).ost.HasRoom) : x.Quiesces c :=
  hx.quiesces_of_served (hx.served_of_room hroom)

/-- Two pieces of two bytes, of which the node has stored piece `p`. -/
def stored (p : ℕ) : ObjStore :=
  let s : ObjStore := ⟨4,2,2,⟨∅,[],[],⟨[],0⟩,2,2,cachesz / 2⟩,⟨[]⟩⟩
  match (s.bfieldInit false []).call (.add p [some 65,some 0]) with
  | .ok (_,t) => t
  | .error _ => s.bfieldInit false []

/-- Each side wants the piece of the other, and side `c` has asked for it. -/
def swap (c : Bool) : Pair := fun b =>
  { ost := stored (if b then 0 else 1)
    nmap := { NbrMap.new 1 2 with nbrs := [⟨false,false,false,0⟩] }
    conn := { Conn.new 1 0 with
      nbr := some 0
      reqs := AList.insert (if b then 1 else 0) true ∅ }
    out := if b = c then [requestPkt (if b then 1 else 0)] else [] }

theorem stored_reached (p : ℕ) : (stored p).Reached := by
  have hstart : ObjStore.Reached (ObjStore.bfieldInit ⟨4,2,2,⟨∅,[],[],⟨[],0⟩,2,2,cachesz / 2⟩,⟨[]⟩⟩ false []) :=
    ⟨4,2,_,false,[],[],rfl,Run.refl⟩
  unfold stored
  simp only
  split
  · rename_i hcall
    exact hstart.call hcall
  · exact hstart

theorem stored_holds : (stored 0).Holds 0 ∧ (stored 1).Holds 1 := by
  unfold ObjStore.Holds
  decide +kernel

theorem stored_places : (stored 0).Places 1 ∧ (stored 1).Places 0 :=
  ⟨⟨false,by decide +kernel⟩,⟨false,by decide +kernel⟩⟩

theorem hasRoom_stored {p : ℕ} (hp : p < 2) : (stored p).HasRoom := by
  interval_cases p
  · exact ⟨by decide +kernel,by decide +kernel⟩
  · exact ⟨by decide +kernel,by decide +kernel⟩

theorem opening_swap (c : Bool) : (swap c).Opening c := by
  refine ⟨fun b => ⟨rfl,rfl,0,_,rfl,rfl⟩,fun b => stored_reached _,fun b p hp => ?_,
    ⟨{ swap c c with out := [] },rfl,?_⟩,?_⟩
  · cases b with
    | true =>
      obtain rfl : p = 1 := List.mem_singleton.mp (AList.mem_keys.mp hp)
      exact ⟨stored_holds.2,stored_places.1⟩
    | false =>
      obtain rfl : p = 0 := List.mem_singleton.mp (AList.mem_keys.mp hp)
      exact ⟨stored_holds.1,stored_places.2⟩
  · cases c <;> rfl
  · cases c <;> rfl

theorem hasRoom_swap (c b : Bool) : (swap c b).ost.HasRoom :=
  hasRoom_stored (show (if b then 0 else 1) < 2 by split <;> decide)

theorem quiesces_swap : (swap false).Quiesces false :=
  (quiesces_iff (opening_swap false)).mpr ((opening_swap false).served_of_room (hasRoom_swap false))

theorem roomy_quiesces_swap : (swap true).Quiesces true := roomy_quiesces (opening_swap true) (hasRoom_swap true)

end Pair

end BTRx
