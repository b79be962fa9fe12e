import BTRx.Base.Exchange
import BTRx.Node.Flags

/-! # What a step of a thread sends where nobody is choked

`Reply` lists the steps with exactly what they send: requests are repeated in full at a timeout
and behind every piece, and only a connecting end sends them when its earmarks are set.
-/
namespace BTRx
open ByteSet Memory LittleEndian Transition

/-- A packet as a message of an exchange. -/
def PktMsg.message (m : PktMsg) : Option (Exchange.Msg UInt32) :=
  match m.type with
  | .Request => some (.ask m.req.pcno)
  | .Piece => some (.answer m.piece.pcno)
  | _ => none

namespace Session

/-- The handler believes that nobody is choked, and no neighbour is. -/
structure Free (s : Session) : Prop where
  node : s.conn.chokedNode = false
  peer : s.conn.chokedPeer = false
  nbrs : ∀ nbr ∈ s.nmap.nbrs, nbr.choked = false

/-- What only `makeThread` and a timeout write. -/
structure Steady (c c' : Conn) : Prop where
  client : c'.client = c.client
  ntimeouts : c'.ntimeouts = c.ntimeouts
  chokedNode : c'.chokedNode = c.chokedNode

inductive Reply (s : Session) : Phase → Event → List PktMsg → Session → Phase → Prop
  | made {self peer : ℤ} {new : List PktMsg} {s' : Session} (conn : s'.conn = Conn.new self peer)
      (openers : ∀ m ∈ new, m.type = .Handshake ∨ m.type = .BitField) :
      Reply s .start (.makeThread self peer) new s' .ready
  | expired {more : List PktMsg} {s' : Session} {ph' : Phase} (haves : ∀ m ∈ more, m.type = .Have)
      (conn : s'.conn = { s.conn with ntimeouts := s.conn.ntimeouts + 1 })
      (alive : ph' = .ready ∧ s.conn.ntimeouts ≠ 4 ∨ ph' = .closed) :
      Reply s .ready .timeout (s.conn.reqs.keys.map requestPkt ++ more) s' ph'
  | hungUp {s' : Session} (conn : s'.conn = s.conn) : Reply s .ready .eof [] s' .closed
  | greeted {pkt : PktMsg} {junk : Bytes} {new : List PktMsg} {s' : Session} (type : pkt.type = .Handshake)
      (steady : Steady s.conn s'.conn) (reqs : s'.conn.reqs = s.conn.reqs)
      (hellos : ∀ m ∈ new, m.type = .Handshake) (count : new.length = if s.conn.client then 1 else 0) :
      Reply s .ready (.packet pkt junk) new s' .ready
  | received {pkt : PktMsg} {junk : Bytes} {new : List PktMsg} {s' : Session} (type : pkt.type = .BitField)
      (steady : Steady s.conn s'.conn) (reqs : s'.conn.reqs = s.conn.reqs)
      (fields : ∀ m ∈ new, m.type = .BitField) (count : new.length = if s.conn.client then 1 else 0) :
      Reply s .ready (.packet pkt junk) new s' .diffing
  | noted {pkt : PktMsg} {junk : Bytes} {s' : Session} (type : pkt.type = .Interested ∨ pkt.type = .NotInterested)
      (conn : s'.conn = s.conn) : Reply s .ready (.packet pkt junk) [] s' .ready
  | had {pkt : PktMsg} {junk : Bytes} {new : List PktMsg} (type : pkt.type = .Have)
      (new_eq : new = [] ∨ new = [{ type := .Interested },requestPkt pkt.have.pcno]) {s' : Session}
      (conn : s'.conn = s.conn) : Reply s .ready (.packet pkt junk) new s' .ready
  | asked {pkt : PktMsg} {junk payload : Bytes} {s' : Session} (type : pkt.type = .Request)
      (conn : s'.conn = s.conn) : Reply s .ready (.packet pkt junk)
        ({ type := .Piece, piece := ⟨pkt.req.pcno,payload⟩ } :: s.conn.reqs.keys.map requestPkt) s' .ready
  | stored {pkt : PktMsg} {junk : Bytes} {s' : Session} (type : pkt.type = .Piece)
      (conn : s'.conn = { s.conn with reqs := s.conn.reqs.erase pkt.piece.pcno }) :
      Reply s .ready (.packet pkt junk) [] s' .ready
  | compared {s' : Session} {todo : List (ℕ × ℕ)} {ret : Bool} (steady : Steady s.conn s'.conn)
      (reqs : s'.conn.reqs = s.conn.reqs) : Reply s .diffing .resume [] s' (.marking todo ret)
  | marked {s' : Session} {ij : ℕ × ℕ} {todo : List (ℕ × ℕ)} {ret ret' : Bool} (steady : Steady s.conn s'.conn)
      (reqs : s'.conn.reqs = s.conn.reqs) : Reply s (.marking (ij :: todo) ret) .resume [] s' (.marking todo ret')
  | declined {s' : Session} (conn : s'.conn = s.conn) :
      Reply s (.marking [] false) .resume [{ type := .NotInterested }] s' .ready
  | answered {s' : Session} (steady : Steady s.conn s'.conn) : Reply s (.marking [] true) .resume
      ({ type := .Interested } :: if s.conn.client then [] else s'.conn.reqs.keys.map requestPkt) s' .ready

variable {s s' : Session} {ph ph' : Phase} {ev : Event} {pkt : PktMsg} {junk : Bytes}

/-- No status is announced. -/
theorem Free.chokeStatusCheck (h : s.Free) (hx : s.chokeStatusCheck s.conn.chokedPeer = .ok s') : s' = s := by
  obtain ⟨pre,rfl,hpre⟩ := chokeStatusCheck_said hx
  rcases hpre with rfl | ⟨⟨k,nbr,hn,hne⟩,_⟩
  · simp
  · have hno := h.nbrs nbr (List.mem_of_getElem? (nbrAt_getElem? hn))
    exact absurd (hno.trans h.peer.symm) hne

/-- A packet that is no bitfield. -/
theorem Free.dispatch (h : s.Free) (hb : pkt.type ≠ .BitField) (hc : pkt.type ≠ .Choke ∧ pkt.type ≠ .UnChoke)
    (hx : s.dispatch pkt junk = .ok s') :
    ∃ new, s'.out = s.out ++ new ∧ Reply s .ready (.packet pkt junk) new s' .ready := by
  by_cases hr : pkt.type = .Request
  · obtain ⟨k,nbr,_,s₁,h₁,rfl⟩ := dispatch_request hr hx
    rcases answerRequest_eq_ok h₁ with ⟨hcp,_⟩ | ⟨_,p,_,_,_,buf,cache,_,rfl⟩
    · exact absurd (h.peer.symm.trans hcp) Bool.false_ne_true
    · refine ⟨{ type := .Piece, piece := ⟨pkt.req.pcno,cString buf junk⟩ } :: s.conn.reqs.keys.map requestPkt,
        ?_,.asked hr ?_⟩
      · simp [send,sendRequests,setNbr,h.node]
      · simp [send,sendRequests,setNbr,h.node]
  unfold Session.dispatch at hx
  cases hty : pkt.type with
  | Handshake =>
    simp only [hty] at hx
    cases hx
    by_cases hcl : s.conn.client = true
    · simp only [if_pos hcl]
      exact ⟨_,rfl,.greeted hty ⟨rfl,rfl,rfl⟩ rfl (fun m hm => by rw [List.mem_singleton.mp hm]) (by simp [hcl])⟩
    · simp only [if_neg hcl]
      exact ⟨[],by simp,.greeted hty ⟨rfl,rfl,rfl⟩ rfl (fun m hm => absurd hm List.not_mem_nil) (by simp [hcl])⟩
  | Choke => exact absurd hty hc.1
  | UnChoke => exact absurd hty hc.2
  | Interested =>
    simp only [hty] at hx
    obtain ⟨_,_,hx⟩ := Outcome.bind_eq_ok.mp hx
    cases hx
    exact ⟨[],by simp [setNbr],.noted (Or.inl hty) rfl⟩
  | NotInterested =>
    simp only [hty] at hx
    obtain ⟨_,_,hx⟩ := Outcome.bind_eq_ok.mp hx
    cases hx
    exact ⟨[],by simp [setNbr],.noted (Or.inr hty) rfl⟩
  | Have =>
    simp only [hty] at hx
    cases hx
    unfold handleHave
    split
    · exact ⟨_,List.append_assoc _ _ _,.had hty (Or.inr rfl) rfl⟩
    · exact ⟨[],by simp,.had hty (Or.inl rfl) rfl⟩
  | BitField => exact absurd hty hb
  | Request => exact absurd hty hr
  | Piece =>
    simp only [hty] at hx
    obtain ⟨_,_,_,_,rfl,_⟩ := handlePiece_eq_ok hx
    exact ⟨[],by simp,.stored hty rfl⟩
  | Unnamed c hc =>
    simp only [hty] at hx
    cases hx

theorem Free.receive (h : s.Free) (hc : pkt.type ≠ .Choke ∧ pkt.type ≠ .UnChoke)
    (hx : s.receive pkt junk = .ok (s',ph')) :
    ∃ new, s'.out = s.out ++ new ∧ Reply s .ready (.packet pkt junk) new s' ph' := by
  unfold Session.receive at hx
  by_cases hb : pkt.type = .BitField
  · rw [if_pos hb] at hx
    obtain ⟨s₁,h₁,hx⟩ := Outcome.bind_eq_ok.mp hx
    cases hx
    rw [h.chokeStatusCheck h₁,recvBitField_eq]
    refine ⟨_,rfl,.received hb ⟨rfl,rfl,rfl⟩ rfl (fun m hm => ?_) ?_⟩
    · split at hm
      · rw [List.mem_singleton.mp hm]
      · exact absurd hm List.not_mem_nil
    · split <;> rfl
  · rw [if_neg hb] at hx
    obtain ⟨s₁,h₁,hx⟩ := Outcome.bind_eq_ok.mp hx
    cases hx
    obtain ⟨s₂,h₂,h₁⟩ := Outcome.bind_eq_ok.mp h₁
    rw [h.chokeStatusCheck h₂] at h₁
    exact h.dispatch hb hc h₁

/-- The requests, and the announcements of every second timeout. -/
theorem timeout_sent (s : Session) : ∃ more, (∀ m ∈ more, m.type = .Have) ∧
    s.timeout.1.out = s.out ++ (s.conn.reqs.keys.map requestPkt ++ more) ∧
    s.timeout.1.conn = { s.conn with ntimeouts := s.conn.ntimeouts + 1 } ∧
    (s.timeout.2 = true → s.conn.ntimeouts ≠ 4) := by
  have hhaves : ∀ m ∈ haves s.ost s.conn.bfieldPeer, m.type = .Have := by
    intro m hm
    obtain ⟨q,_,rfl⟩ := List.mem_map.mp hm
    rfl
  simp only [timeout]
  split
  · rename_i heven
    exact ⟨_,hhaves,List.append_assoc _ _ _,rfl,fun _ hn => by simp [hn,sendRequests] at heven⟩
  · refine ⟨[],fun m hm => absurd hm List.not_mem_nil,by simp [sendRequests],rfl,fun hgo hn => ?_⟩
    simp [hn,sendRequests] at hgo

/-- The inversion of `event` with what is sent. -/
theorem Free.event (h : s.Free)
    (hc : ∀ pkt junk, ev = .packet pkt junk → pkt.type ≠ .Choke ∧ pkt.type ≠ .UnChoke)
    (hx : s.event ph ev = .ok (s',ph')) : ∃ new, s'.out = s.out ++ new ∧ Reply s ph ev new s' ph' := by
  unfold Session.event at hx
  split at hx
  · rename_i self peer
    cases hx
    unfold start
    by_cases hp : peer = 0
    · have hcl : (Conn.new self peer).client = true := decide_eq_true hp
      simp only [hcl,if_true]
      exact ⟨[],by simp,.made rfl fun m hm => absurd hm List.not_mem_nil⟩
    · have hcl : (Conn.new self peer).client = false := decide_eq_false hp
      simp only [hcl,Bool.false_eq_true,if_false]
      refine ⟨_,List.append_assoc _ _ _,.made rfl fun m hm => ?_⟩
      rcases List.mem_cons.mp hm with rfl | hm
      · exact Or.inl rfl
      · rw [List.mem_singleton.mp hm]
        exact Or.inr rfl
  · rename_i pkt junk
    exact h.receive (hc pkt junk rfl) (Outcome.mapError_eq_ok.mp hx)
  · rw [Outcome.mapError_eq_ok,expire] at hx
    obtain ⟨more,hmore,hout,hconn,halive⟩ := timeout_sent s
    split at hx
    · rename_i hgo
      cases hx
      exact ⟨_,hout,.expired hmore hconn (Or.inl ⟨rfl,halive hgo⟩)⟩
    · obtain ⟨rfl,k,nbr,rfl⟩ := hangUp_eq_ok hx
      exact ⟨_,hout,.expired hmore hconn (Or.inr rfl)⟩
  · obtain ⟨rfl,k,nbr,rfl⟩ := hangUp_eq_ok (Outcome.mapError_eq_ok.mp hx)
    exact ⟨[],by simp [setNbr],.hungUp rfl⟩
  · obtain ⟨diff,_,hx⟩ := Outcome.bind_eq_ok.mp (Outcome.mapError_eq_ok.mp hx)
    cases hx
    exact ⟨[],by simp,.compared ⟨rfl,rfl,rfl⟩ rfl⟩
  · obtain ⟨e,_,hx⟩ := Outcome.bind_eq_ok.mp (Outcome.mapError_eq_ok.mp hx)
    cases hx
    exact ⟨[],by simp,.marked ⟨rfl,rfl,rfl⟩ rfl⟩
  · rename_i ret
    cases hx
    cases ret with
    | false => exact ⟨_,rfl,.declined rfl⟩
    | true =>
      refine ⟨{ type := .Interested } :: if s.conn.client then []
          else (s.answerBitField true).conn.reqs.keys.map requestPkt,?_,.answered ?_⟩
      · rw [answerBitField_true]
        cases s.conn.client <;> simp [h.node]
      · rw [answerBitField_true]
        exact ⟨rfl,rfl,rfl⟩
  · cases hx

/-! ## What the steps have in common -/

variable {new : List PktMsg}

theorem mem_requests {reqs : Reqs} {m : PktMsg} (hm : m ∈ reqs.keys.map requestPkt) : m.type = .Request := by
  obtain ⟨q,_,rfl⟩ := List.mem_map.mp hm
  rfl

/-- No step announces a choke status. -/
theorem Reply.unchoked (h : Reply s ph ev new s' ph') {m : PktMsg} (hm : m ∈ new) :
    m.type ≠ .Choke ∧ m.type ≠ .UnChoke := by
  cases h with
  | made _ hopen => rcases hopen m hm with ht | ht <;> simp [ht]
  | expired hmore =>
    rcases List.mem_append.mp hm with hm | hm
    · simp [mem_requests hm]
    · simp [hmore m hm]
  | hungUp | noted | stored | compared | marked => cases hm
  | greeted _ _ _ hsame => simp [hsame m hm]
  | received _ _ _ hsame => simp [hsame m hm]
  | had _ hnew =>
    rcases hnew with rfl | rfl
    · cases hm
    · rcases List.mem_cons.mp hm with rfl | hm
      · simp
      · rw [List.mem_singleton.mp hm]
        simp [requestPkt]
  | asked =>
    rcases List.mem_cons.mp hm with rfl | hm
    · simp
    · simp [mem_requests hm]
  | declined =>
    rw [List.mem_singleton.mp hm]
    simp
  | answered =>
    rcases List.mem_cons.mp hm with rfl | hm
    · simp
    · split at hm
      · cases hm
      · simp [mem_requests hm]

/-- The answer to a Request. -/
theorem Reply.request (h : Reply s ph (.packet pkt junk) new s' ph') (ht : pkt.type = .Request) :
    s'.conn = s.conn ∧ ∃ payload : Bytes,
      new = { type := .Piece, piece := ⟨pkt.req.pcno,payload⟩ } :: s.conn.reqs.keys.map requestPkt := by
  cases h with
  | @asked _ _ payload _ _ hconn => exact ⟨hconn,payload,rfl⟩
  | greeted hty | received hty | had hty | stored hty => cases hty.symm.trans ht
  | noted hty => rcases hty with hty | hty <;> cases hty.symm.trans ht

theorem Reply.piece (h : Reply s ph (.packet pkt junk) new s' ph') (ht : pkt.type = .Piece) :
    s'.conn = { s.conn with reqs := s.conn.reqs.erase pkt.piece.pcno } ∧ new = [] := by
  cases h with
  | stored _ hconn => exact ⟨hconn,rfl⟩
  | greeted hty | received hty | had hty | asked hty => cases hty.symm.trans ht
  | noted hty => rcases hty with hty | hty <;> cases hty.symm.trans ht

/-- A thread keeps its role, and it is closed at its fifth timeout. -/
theorem Reply.frame (h : Reply s ph ev new s' ph') :
    (∃ self peer, ph = .start ∧ ev = .makeThread self peer ∧ s'.conn = Conn.new self peer) ∨
      ph ≠ .start ∧ s'.conn.client = s.conn.client ∧ s'.conn.chokedNode = s.conn.chokedNode ∧
        (ph ≠ .closed → s.conn.ntimeouts < 5 → ph' ≠ .closed → s'.conn.ntimeouts < 5) := by
  have hsteady : Steady s.conn s'.conn → s'.conn.client = s.conn.client ∧
      s'.conn.chokedNode = s.conn.chokedNode ∧
      (ph ≠ .closed → s.conn.ntimeouts < 5 → ph' ≠ .closed → s'.conn.ntimeouts < 5) := by
    intro hs
    refine ⟨hs.client,hs.chokedNode,fun _ hlt _ => ?_⟩
    rw [hs.ntimeouts]
    exact hlt
  have hsame : s'.conn = s.conn → Steady s.conn s'.conn := fun hconn => by rw [hconn]; exact ⟨rfl,rfl,rfl⟩
  cases h with
  | @made self peer _ _ hconn => exact Or.inl ⟨self,peer,rfl,rfl,hconn⟩
  | expired _ hconn halive =>
    refine Or.inr ⟨nofun,by rw [hconn],by rw [hconn],fun _ hlt hopen => ?_⟩
    rw [hconn]
    have hne := (halive.resolve_right hopen).2
    exact show s.conn.ntimeouts + 1 < 5 by omega
  | hungUp hconn => exact Or.inr ⟨nofun,hsteady (hsame hconn)⟩
  | greeted _ hs => exact Or.inr ⟨nofun,hsteady hs⟩
  | received _ hs => exact Or.inr ⟨nofun,hsteady hs⟩
  | noted _ hconn => exact Or.inr ⟨nofun,hsteady (hsame hconn)⟩
  | had _ _ hconn => exact Or.inr ⟨nofun,hsteady (hsame hconn)⟩
  | asked _ hconn => exact Or.inr ⟨nofun,hsteady (hsame hconn)⟩
  | stored _ hconn => exact Or.inr ⟨nofun,hsteady (by rw [hconn]; exact ⟨rfl,rfl,rfl⟩)⟩
  | compared hs => exact Or.inr ⟨nofun,hsteady hs⟩
  | marked hs => exact Or.inr ⟨nofun,hsteady hs⟩
  | declined hconn => exact Or.inr ⟨nofun,hsteady (hsame hconn)⟩
  | answered hs => exact Or.inr ⟨nofun,hsteady hs⟩

end Session
end BTRx
