import BTRx.Base.Transition
import BTRx.Handler.Bounds

/-! # Choke states over a run

Other threads may leave any value in `nbr->choked` before a check. `choke_status_check`
compares it with a copy of `choked_peer` that is never written back, so every check that
reads `true` sends another Choke, no UnChoke is ever sent, and a Request is answered
whatever was read.
-/
namespace BTRx
open Memory ByteSet LittleEndian Transition
namespace Session

/-- The value other threads leave in `nbr->choked`. -/
def leaveChoked (choked : Bool) (s : Session) : Session :=
  match s.nbrAt with
  | .ok (k,nbr) => s.setNbr k { nbr with choked }
  | .error _ => s

structure ChokeInput where
  choked : Bool
  pkt : PktMsg
  junk : Bytes

/-- A turn of the loop after such a write, with the packets it sends. -/
def chokeTurn (s : Session) (i : ChokeInput) : Except Fault (List PktMsg × Session) := do
  let s' ← (s.leaveChoked i.choked).handle i.pkt i.junk
  return (s'.out.drop s.out.length,s')

/-- The choke status messages among some packets, as the values they announce. -/
def statuses (out : List PktMsg) : List Bool :=
  out.filterMap fun m => match m.type with
    | .Choke => some true
    | .UnChoke => some false
    | _ => none

/-- Turns with their inputs and outputs, newest first. -/
abbrev ChokeHist := List (Session × ChokeInput × List PktMsg)

def lastRead : ChokeHist → Bool
  | [] => false
  | (_,i,_) :: _ => i.choked

/-- Every turn sends a status message exactly when the value read has changed. -/
def StatusSent : ChokeHist → Prop
  | [] => True
  | (_,i,out) :: older =>
    statuses out = (if i.choked ≠ lastRead older then [i.choked] else []) ∧ StatusSent older

/-- All status messages, newest first. -/
def chokeTrace (hist : ChokeHist) : List Bool := hist.flatMap fun e => (statuses e.2.2).reverse

structure ChokeTracked (hist : ChokeHist) : Prop where
  sent : StatusSent hist
  alternates : (chokeTrace hist).IsChain (· ≠ ·)
  first : ∀ b ∈ (chokeTrace hist).getLast?, b = true
  last : (chokeTrace hist).headD false = lastRead hist
  obeyed : ∀ e ∈ hist, e.2.1.pkt.type = .Request → e.2.1.choked = true →
    ∀ m ∈ e.2.2, m.type ≠ .Piece

/-- Only the newest value read may be `true`, and not in front of a Request. -/
def ChokedLast : List ChokeInput → Prop
  | [] => True
  | i :: older => (i.choked = true → i.pkt.type ≠ .Request) ∧ ∀ j ∈ older, j.choked = false

/-! ## What one turn sends -/

theorem statuses_append (a b : List PktMsg) : statuses (a ++ b) = statuses a ++ statuses b := by
  simp [statuses]

theorem statuses_requests (reqs : Reqs) : statuses (reqs.keys.map requestPkt) = [] := by
  simp [statuses,requestPkt]

theorem sendRequests_statuses (s : Session) :
    ∃ new, s.sendRequests.out = s.out ++ new ∧ statuses new = [] :=
  ⟨_,rfl,statuses_requests _⟩

theorem handleHave_statuses (pkt : PktMsg) (s : Session) :
    ∃ new, (s.handleHave pkt).out = s.out ++ new ∧ statuses new = [] := by
  unfold handleHave
  split
  · exact ⟨[{ type := .Interested },requestPkt pkt.have.pcno],by simp [sendInterested,send],rfl⟩
  · exact ⟨[],by simp,rfl⟩

theorem answerBitField_statuses (interested : Bool) (s : Session) :
    ∃ new, (s.answerBitField interested).out = s.out ++ new ∧ statuses new = [] := by
  cases interested with
  | false => exact ⟨_,rfl,rfl⟩
  | true =>
    rw [answerBitField_true]
    refine ⟨_,rfl,?_⟩
    split
    · simp [statuses,requestPkt]
    · rfl

/-- The Request case sends one piece, unless the peer is choked, and no status. -/
theorem request_statuses {pkt : PktMsg} {junk : Bytes} {s s' : Session} (ht : pkt.type = .Request)
    (h : s.dispatch pkt junk = .ok s') : ∃ new, s'.out = s.out ++ new ∧ statuses new = [] ∧
      (s.conn.chokedPeer = false → ∃ m ∈ new, m.type = .Piece) := by
  obtain ⟨k,nbr,_,s₁,h₁,rfl⟩ := dispatch_request ht h
  have hmore : ∃ more, (if !s₁.conn.chokedNode then s₁.sendRequests else s₁ : Session).out =
      s₁.out ++ more ∧ statuses more = [] := by
    split
    · exact sendRequests_statuses s₁
    · exact ⟨[],by simp,rfl⟩
  obtain ⟨more,hout,hmore⟩ := hmore
  rw [hout]
  rcases answerRequest_eq_ok h₁ with ⟨hc,rfl⟩ | ⟨_,p,_,_,_,buf,cache,_,rfl⟩
  · refine ⟨more,rfl,hmore,fun hf => ?_⟩
    replace hc : s.conn.chokedPeer = true := hc
    rw [hf] at hc
    cases hc
  · refine ⟨{ type := .Piece, piece := { pcno := pkt.req.pcno, payload := cString buf junk } } :: more,
      ?_,?_,fun _ => ⟨_,List.mem_cons_self,rfl⟩⟩
    · simp [send,setNbr]
    · exact hmore

/-- The switch sends no status message. -/
theorem dispatch_statuses {pkt : PktMsg} {junk : Bytes} {s s' : Session}
    (h : s.dispatch pkt junk = .ok s') : ∃ new, s'.out = s.out ++ new ∧ statuses new = [] := by
  have hkeep := h
  unfold dispatch at h
  cases hty : pkt.type with
  | Handshake =>
    simp only [hty] at h
    cases h
    split
    · exact ⟨_,rfl,rfl⟩
    · exact ⟨[],by simp,rfl⟩
  | Choke =>
    simp only [hty] at h
    cases h
    exact ⟨[],by simp,rfl⟩
  | UnChoke =>
    simp only [hty] at h
    cases h
    exact sendRequests_statuses _
  | Interested =>
    simp only [hty] at h
    obtain ⟨_,_,h⟩ := Outcome.bind_eq_ok.mp h
    cases h
    exact ⟨[],by simp [setNbr],rfl⟩
  | NotInterested =>
    simp only [hty] at h
    obtain ⟨_,_,h⟩ := Outcome.bind_eq_ok.mp h
    cases h
    exact ⟨[],by simp [setNbr],rfl⟩
  | Have =>
    simp only [hty] at h
    cases h
    exact handleHave_statuses pkt s
  | BitField =>
    rw [dispatch_bitField s hty] at hkeep
    obtain ⟨⟨ret,diff,nmap⟩,_,hkeep⟩ := Outcome.bind_eq_ok.mp hkeep
    cases hkeep
    obtain ⟨more,hout,hmore⟩ := answerBitField_statuses ret
      { s.recvBitField pkt with nmap, conn := { (s.recvBitField pkt).conn with diff } }
    refine ⟨_,hout.trans (by rw [recvBitField_eq,List.append_assoc]),?_⟩
    rw [statuses_append,hmore,List.append_nil]
    split <;> rfl
  | Request =>
    obtain ⟨new,hout,hnew,_⟩ := request_statuses hty hkeep
    exact ⟨new,hout,hnew⟩
  | Piece =>
    simp only [hty] at h
    obtain ⟨_,_,_,_,rfl,_⟩ := handlePiece_eq_ok h
    exact ⟨[],by simp,rfl⟩
  | Unnamed c hc =>
    simp only [hty] at h
    cases h

/-- A turn announces the value it reads when that is `true`, and nothing otherwise. -/
theorem chokeTurn_spec {s s' : Session} {i : ChokeInput} {out : List PktMsg} (hs : s.NbrLive)
    (hc : s.conn.chokedPeer = false) (h : s.chokeTurn i = .ok (out,s')) :
    statuses out = (if i.choked then [true] else []) ∧
      (i.pkt.type = .Request → ∃ m ∈ out, m.type = .Piece) ∧ s'.NbrLive ∧
      s'.conn.chokedPeer = false := by
  obtain ⟨k,nbr,hn⟩ := hs.nbrAt
  obtain ⟨s₁,h₁⟩ : ∃ s₁, s₁ = s.setNbr k { nbr with choked := i.choked } := ⟨_,rfl⟩
  have hleave : s.leaveChoked i.choked = s₁ := by rw [leaveChoked,hn,h₁]
  obtain ⟨t,ht,h⟩ := Outcome.bind_eq_ok.mp h
  cases h
  rw [hleave] at ht
  have hlive : s₁.NbrLive := h₁ ▸ hs.setNbr k _
  have hsame : s₁.conn = s.conn ∧ s₁.out = s.out := by
    rw [h₁]
    exact ⟨rfl,rfl⟩
  have hn₁ : s₁.nbrAt = .ok (k,{ nbr with choked := i.choked }) := by
    rw [h₁]
    obtain ⟨l,hl,hlt⟩ := hs
    simp only [Session.nbrAt,hl,List.getElem?_eq_getElem hlt,Except.ok.injEq,Prod.mk.injEq] at hn
    obtain ⟨rfl,_⟩ := hn
    simp [Session.nbrAt,setNbr,hl,hlt]
  -- the check compares with `false` and sends the value read when it is `true`
  have hcheck : s₁.chokeStatusCheck s₁.conn.chokedPeer =
      .ok (if i.choked then s₁.send { type := .Choke } else s₁) := by
    have hsome : s₁.conn.nbr.isNone = false := by
      obtain ⟨l,hl,_⟩ := hlive
      rw [hl]
      rfl
    rw [hsame.1,hc]
    simp only [Session.chokeStatusCheck,hsome,hn₁,Outcome.ok_bind,Outcome.pure_eq,sendChokeStatus]
    cases i.choked with
    | true => rfl
    | false => rfl
  have hlive' := handle_nbrLive hlive ht
  rw [handle,hcheck,Outcome.ok_bind] at ht
  obtain ⟨pre,hpre,hst⟩ : ∃ pre, (if i.choked then s₁.send { type := .Choke } else s₁ : Session) =
      { s₁ with out := s.out ++ pre } ∧ statuses pre = if i.choked then [true] else [] := by
    cases i.choked with
    | true => exact ⟨[{ type := .Choke }],by rw [← hsame.2]; rfl,rfl⟩
    | false => exact ⟨[],by rw [List.append_nil,← hsame.2]; rfl,rfl⟩
  rw [hpre] at ht
  have hcp : s'.conn.chokedPeer = false := by
    by_cases hb : i.pkt.type = .BitField
    · rw [(bitField_frame hb ht).2.2.2.1,hsame.1,hc]
    · rw [(dispatch_turned hb ht).same.chokedPeer,hsame.1,hc]
  refine ⟨?_,?_,hlive',hcp⟩
  · obtain ⟨new,hout,hnew⟩ := dispatch_statuses ht
    rw [hout,List.append_assoc,List.drop_left,statuses_append,hnew,hst,List.append_nil]
  · intro hr
    obtain ⟨new,hout,_,hpiece⟩ := request_statuses hr ht
    obtain ⟨m,hm,htype⟩ := hpiece (by rw [hsame.1,hc])
    rw [hout,List.append_assoc,List.drop_left]
    exact ⟨m,List.mem_append_right _ hm,htype⟩

/-! ## Runs -/

/-- The alternation follows from the first law alone. -/
theorem chokeTrace_of_sent {hist : ChokeHist} (h : StatusSent hist) :
    (chokeTrace hist).IsChain (· ≠ ·) ∧ (∀ b ∈ (chokeTrace hist).getLast?, b = true) ∧
      (chokeTrace hist).headD false = lastRead hist := by
  induction hist with
  | nil => exact ⟨List.isChain_nil,nofun,rfl⟩
  | cons e older ih =>
    obtain ⟨s,i,out⟩ := e
    obtain ⟨hst,holder⟩ := h
    obtain ⟨hchain,hfirst,hlast⟩ := ih holder
    have htrace : chokeTrace ((s,i,out) :: older) = (statuses out).reverse ++ chokeTrace older := by
      simp only [chokeTrace,List.flatMap_cons]
    have hread : lastRead ((s,i,out) :: older) = i.choked := rfl
    rw [htrace,hst,hread]
    by_cases hne : i.choked ≠ lastRead older
    · rw [if_pos hne,List.reverse_singleton,List.singleton_append]
      rw [← hlast] at hne
      cases htr : chokeTrace older with
      | nil =>
        rw [htr] at hne
        refine ⟨List.isChain_singleton _,?_,rfl⟩
        intro b hb
        simp only [List.getLast?_singleton,Option.mem_some_iff] at hb
        simpa [← hb] using hne
      | cons c rest =>
        rw [htr] at hne hchain hfirst
        exact ⟨List.isChain_cons_cons.mpr ⟨hne,hchain⟩,by rwa [List.getLast?_cons_cons],rfl⟩
    · rw [if_neg hne,List.reverse_nil,List.nil_append]
      exact ⟨hchain,hfirst,by rw [not_not.mp hne]; exact hlast⟩

theorem statusSent_iff {hist : ChokeHist}
    (h : ∀ e ∈ hist, statuses e.2.2 = if e.2.1.choked then [true] else []) :
    StatusSent hist ↔ ∀ e ∈ hist.tail, e.2.1.choked = false := by
  induction hist with
  | nil => simp [StatusSent]
  | cons e older ih =>
    obtain ⟨he,holder⟩ := List.forall_mem_cons.mp h
    obtain ⟨s,i,out⟩ := e
    simp only [StatusSent,he,ih holder,List.tail_cons]
    cases older with
    | nil => cases hi : i.choked <;> simp [lastRead]
    | cons e' rest =>
      rw [List.forall_mem_cons,lastRead,List.tail_cons]
      cases hi : i.choked <;> cases he' : e'.2.1.choked <;> simp

/-- The state of a turn's connection during a run. -/
theorem run_chokeTurn {s t : Session} {hist : ChokeHist} (hs : s.NbrLive)
    (hc : s.conn.chokedPeer = false) (run : Run (ExecStep chokeTurn) s hist t) :
    (t.NbrLive ∧ t.conn.chokedPeer = false) ∧ ∀ e ∈ hist,
      statuses e.2.2 = (if e.2.1.choked then [true] else []) ∧
      (e.2.1.pkt.type = .Request → ∃ m ∈ e.2.2, m.type = .Piece) := by
  induction run with
  | refl => exact ⟨⟨hs,hc⟩,fun e he => absurd he List.not_mem_nil⟩
  | tail _ last ih =>
    obtain ⟨⟨hlive,hcp⟩,hall⟩ := ih
    obtain ⟨hst,hpiece,hlive',hcp'⟩ := chokeTurn_spec hlive hcp last
    exact ⟨⟨hlive',hcp'⟩,List.forall_mem_cons.mpr ⟨⟨hst,hpiece⟩,hall⟩⟩

/-- Choke states are tracked exactly in the runs where only the last value read may be
`true`, and not in front of a Request. -/
theorem chokeTracked_iff {s t : Session} {hist : ChokeHist} (hs : s.NbrLive)
    (hc : s.conn.chokedPeer = false) (run : Run (ExecStep chokeTurn) s hist t) :
    ChokeTracked hist ↔ ChokedLast (hist.map fun e => e.2.1) := by
  obtain ⟨_,hall⟩ := run_chokeTurn hs hc run
  have hsent := statusSent_iff fun e he => (hall e he).1
  cases hist with
  | nil =>
    obtain ⟨halt,hfirst,hread⟩ := @chokeTrace_of_sent [] trivial
    exact ⟨fun _ => trivial,fun _ => ⟨trivial,halt,hfirst,hread,fun e he => absurd he List.not_mem_nil⟩⟩
  | cons e older =>
    simp only [List.map_cons,ChokedLast,List.forall_mem_map]
    rw [List.tail_cons] at hsent
    constructor
    · intro h
      refine ⟨fun hv hr => ?_,hsent.mp h.sent⟩
      obtain ⟨m,hm,htype⟩ := (hall e List.mem_cons_self).2 hr
      exact h.obeyed e List.mem_cons_self hr hv m hm htype
    · rintro ⟨hlast,holder⟩
      have hst := hsent.mpr holder
      obtain ⟨halt,hfirst,hread⟩ := chokeTrace_of_sent hst
      refine ⟨hst,halt,hfirst,hread,?_⟩
      intro e' he' hr hv
      rcases List.mem_cons.mp he' with rfl | he'
      · exact absurd hr (hlast hv)
      · rw [holder e' he'] at hv
        cases hv

/-- A connection of a node with one piece, after its handshake. -/
def chokeDemo : Session where
  ost :=
    { fsz := 1
      pcsz := 1
      npcs := 1
      cache := ⟨∅,[],[],⟨[some 7],0⟩,1,1,1⟩
      bfield := ⟨[1]⟩ }
  nmap := ((NbrMap.new 1 1).registerCli 2).2
  conn := { Conn.new 1 0 with nbr := some 0 }
  out := []

theorem chokeTracked_interested : ∃ hist t, Run (ExecStep chokeTurn) chokeDemo hist t ∧
    hist.map (fun e => e.2.1.choked) = [true,false] ∧ ChokeTracked hist := by
  have run := run_of_execAll .refl (show execAll chokeTurn [⟨false,requestPkt 0,[]⟩,
    ⟨true,{ type := .Interested },[]⟩] [] chokeDemo = .ok _ from rfl)
  have hlast := chokeTracked_iff ⟨0,rfl,by decide⟩ rfl run
  refine ⟨_,_,run,rfl,hlast.mpr ⟨?_,?_⟩⟩
  · intro _ h
    cases h
  · intro j hj
    rw [List.mem_singleton.mp hj]

/-- A neighbour that stays choked is told so on every packet. -/
theorem choke_not_tracked : ∃ hist t, Run (ExecStep chokeTurn) chokeDemo hist t ∧
    ¬ ChokeTracked hist := by
  have run := run_of_execAll .refl (show execAll chokeTurn [⟨true,{ type := .Interested },[]⟩,
    ⟨true,{ type := .Interested },[]⟩] [] chokeDemo = .ok _ from rfl)
  refine ⟨_,_,run,?_⟩
  intro h
  exact absurd h.sent.1 (by decide)

end Session
end BTRx
