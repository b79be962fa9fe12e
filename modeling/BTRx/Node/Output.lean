import BTRx.Handler.Choke
import BTRx.Node.Claims

/-! # What a step of a thread sends

A thread greets once on its own and once for every Handshake it accepts, it hands over one
piece for every Request it takes, of a piece it has, and it announces a choke status only where the
flag of its neighbour differs from its own copy. Packets of the other types say nothing here.
-/
namespace BTRx
open ByteSet Memory LittleEndian Transition

/-- The piece that a Request asks for. -/
def PktMsg.requestNo (m : PktMsg) : Option UInt32 := if m.type = .Request then some m.req.pcno else none

/-- The piece that a Piece packet brings. -/
def PktMsg.pieceNo (m : PktMsg) : Option UInt32 := if m.type = .Piece then some m.piece.pcno else none

def PktMsg.greeting (m : PktMsg) : Option Unit := if m.type = .Handshake then some () else none

/-- The packet that a step handles. -/
def Event.taken : Event → List PktMsg
  | .packet pkt _ => [pkt]
  | _ => []

namespace Session

/-- Packets that bring no piece, greet no one and announce no choke status. -/
def Routine (new : List PktMsg) : Prop :=
  ∀ m ∈ new, m.type ≠ .Handshake ∧ m.type ≠ .Piece ∧ m.type ≠ .Choke ∧ m.type ≠ .UnChoke

/-- The handshakes a step sends. -/
def greetings (s : Session) : Event → List Unit
  | .makeThread _ peer => if peer = 0 then [] else [()]
  | .packet pkt _ => if pkt.type = .Handshake ∧ s.conn.client = true then [()] else []
  | _ => []

structure Said (s : Session) (ev : Event) (new : List PktMsg) : Prop where
  pieces : new.filterMap PktMsg.pieceNo =
    if s.conn.chokedPeer then [] else ev.taken.filterMap PktMsg.requestNo
  greetings : new.filterMap PktMsg.greeting = s.greetings ev
  statuses : statuses new = [] ∨ ∃ k nbr, s.nbrAt = .ok (k,nbr) ∧ nbr.choked ≠ s.conn.chokedPeer
  held : ∀ m ∈ new, m.type = .Piece → s.ost.bfield.exists (toInt m.piece.pcno.toNat) = .ok true

variable {s s' : Session} {ph ph' : Phase} {ev : Event} {pkt : PktMsg} {junk : Bytes} {new more : List PktMsg}

theorem routine_nil : Routine [] := by simp [Routine]

theorem Routine.append (h : Routine new) (h' : Routine more) : Routine (new ++ more) := by
  intro m hm
  rcases List.mem_append.mp hm with hm | hm
  · exact h m hm
  · exact h' m hm

theorem routine_single {m : PktMsg} (h : m.type = .BitField ∨ m.type = .Interested ∨ m.type = .NotInterested) :
    Routine [m] := by
  intro x hx
  rw [List.mem_singleton.mp hx]
  rcases h with h | h | h <;> simp [h]

theorem routine_requests (reqs : Reqs) : Routine (reqs.keys.map requestPkt) := by
  intro m hm
  obtain ⟨q,_,rfl⟩ := List.mem_map.mp hm
  simp [requestPkt]

theorem routine_haves (ost : ObjStore) (peer : List UInt8) : Routine (haves ost peer) := by
  intro m hm
  obtain ⟨q,_,rfl⟩ := List.mem_map.mp hm
  simp [havePkt]

/-- What routine packets say. -/
theorem Routine.silent (h : Routine new) : new.filterMap PktMsg.pieceNo = [] ∧
    new.filterMap PktMsg.greeting = [] ∧ statuses new = [] := by
  refine ⟨List.filterMap_eq_nil_iff.mpr fun m hm => if_neg (h m hm).2.1,
    List.filterMap_eq_nil_iff.mpr fun m hm => if_neg (h m hm).1,List.filterMap_eq_nil_iff.mpr fun m hm => ?_⟩
  obtain ⟨_,_,hc,hu⟩ := h m hm
  split
  · rename_i ht
    exact absurd ht hc
  · rename_i ht
    exact absurd ht hu
  · rfl

theorem Routine.said (h : Routine new) (hp : ev.taken.filterMap PktMsg.requestNo = [] ∨ s.conn.chokedPeer = true)
    (hg : s.greetings ev = []) : Said s ev new := by
  obtain ⟨hpieces,hgreet,hst⟩ := h.silent
  refine ⟨?_,hgreet.trans hg.symm,Or.inl hst,fun m hm ht => absurd ht (h m hm).2.1⟩
  rcases hp with hp | hp
  · rw [hpieces,hp,ite_self]
  · rw [hpieces,if_pos hp]

theorem Said.routine (h : Said s ev new) (hr : Routine more) : Said s ev (new ++ more) := by
  obtain ⟨hpieces,hgreet,hst⟩ := hr.silent
  refine ⟨?_,?_,?_,fun m hm ht => ?_⟩
  · rw [List.filterMap_append,hpieces,List.append_nil,h.pieces]
  · rw [List.filterMap_append,hgreet,List.append_nil,h.greetings]
  · rw [statuses_append,hst,List.append_nil]
    exact h.statuses
  · rcases List.mem_append.mp hm with hm | hm
    · exact h.held m hm ht
    · exact absurd ht (hr m hm).2.1

/-- A choke status is sent where the flag differs. -/
theorem chokeStatusCheck_said {b : Bool} (h : s.chokeStatusCheck b = .ok s') :
    ∃ pre, s' = { s with out := s.out ++ pre } ∧ (pre = [] ∨
      (∃ k nbr, s.nbrAt = .ok (k,nbr) ∧ nbr.choked ≠ b) ∧
        (pre = [{ type := .Choke }] ∨ pre = [{ type := .UnChoke }])) := by
  have hpre := chokeStatusCheck_eq_ok h
  unfold chokeStatusCheck at h
  by_cases hn : s.conn.nbr.isNone = true
  · rw [if_pos hn] at h
    cases h
    exact ⟨[],by simp,Or.inl rfl⟩
  · rw [if_neg hn] at h
    obtain ⟨⟨k,nbr⟩,hnbr,h⟩ := Outcome.bind_eq_ok.mp h
    cases h
    by_cases hb : b ≠ nbr.choked
    · obtain ⟨pre,heq,hnew⟩ := hpre
      exact ⟨pre,heq,hnew.imp_right fun hnew => ⟨⟨k,nbr,hnbr,Ne.symm hb⟩,hnew⟩⟩
    · exact ⟨[],by simp [hb],Or.inl rfl⟩

theorem Said.status {pre : List PktMsg} (h : Said s ev new) (hpre : pre = [] ∨
    (∃ k nbr, s.nbrAt = .ok (k,nbr) ∧ nbr.choked ≠ s.conn.chokedPeer) ∧
      (pre = [{ type := .Choke }] ∨ pre = [{ type := .UnChoke }])) : Said s ev (pre ++ new) := by
  rcases hpre with rfl | ⟨hread,hpre⟩
  · exact h
  · have hsilent : pre.filterMap PktMsg.pieceNo = [] ∧ pre.filterMap PktMsg.greeting = [] ∧
        ∀ m ∈ pre, m.type ≠ .Piece := by
      rcases hpre with rfl | rfl <;> simp [PktMsg.pieceNo,PktMsg.greeting]
    refine ⟨?_,?_,Or.inr hread,fun m hm ht => ?_⟩
    · rw [List.filterMap_append,hsilent.1,List.nil_append,h.pieces]
    · rw [List.filterMap_append,hsilent.2.1,List.nil_append,h.greetings]
    · rcases List.mem_append.mp hm with hm | hm
      · exact absurd ht (hsilent.2.2 m hm)
      · exact h.held m hm ht

theorem request_said (ht : pkt.type = .Request) (h : s.dispatch pkt junk = .ok s') :
    ∃ new, s'.out = s.out ++ new ∧ Said s (.packet pkt junk) new := by
  obtain ⟨k,nbr,_,s₁,h₁,rfl⟩ := dispatch_request ht h
  have hmore : ∃ more, (if !s₁.conn.chokedNode then s₁.sendRequests else s₁ : Session).out =
      s₁.out ++ more ∧ Routine more := by
    split
    · exact ⟨_,rfl,routine_requests _⟩
    · exact ⟨[],by simp,routine_nil⟩
  obtain ⟨more,hout,hmore⟩ := hmore
  have hgreet : s.greetings (.packet pkt junk) = [] := by simp [greetings,ht]
  rw [hout]
  rcases answerRequest_eq_ok h₁ with ⟨hc,rfl⟩ | ⟨hc,p,hp,hlt,hbit,buf,cache,_,rfl⟩
  · exact ⟨more,rfl,hmore.said (Or.inr hc) hgreet⟩
  · replace hc : s.conn.chokedPeer = false := hc
    refine ⟨{ type := .Piece, piece := { pcno := pkt.req.pcno, payload := cString buf junk } } :: more,
      by simp [send,setNbr],?_⟩
    refine @Said.routine s (.packet pkt junk)
      [{ type := .Piece, piece := { pcno := pkt.req.pcno, payload := cString buf junk } }] more
      ⟨?_,?_,Or.inl rfl,fun m hm _ => ?_⟩ hmore
    · simp [hc,PktMsg.pieceNo,Event.taken,PktMsg.requestNo,ht]
    · rw [hgreet]
      simp [PktMsg.greeting]
    · rw [List.mem_singleton.mp hm,hp]
      exact Bfield.exists_eq_ok.mpr ⟨p,rfl,hlt,hbit.symm⟩

theorem dispatch_said (ht : pkt.type ≠ .BitField) (h : s.dispatch pkt junk = .ok s') :
    ∃ new, s'.out = s.out ++ new ∧ Said s (.packet pkt junk) new := by
  by_cases hr : pkt.type = .Request
  · exact request_said hr h
  have hask : (Event.packet pkt junk).taken.filterMap PktMsg.requestNo = [] := by
    simp [Event.taken,PktMsg.requestNo,hr]
  have hroutine : ∀ new, Routine new → pkt.type ≠ .Handshake → Said s (.packet pkt junk) new := by
    intro new hnew hh
    exact hnew.said (Or.inl hask) (by simp [greetings,hh])
  unfold dispatch at h
  cases hty : pkt.type with
  | Handshake =>
    simp only [hty] at h
    cases h
    by_cases hc : s.conn.client = true
    · simp only [if_pos hc]
      refine ⟨_,rfl,?_,?_,Or.inl rfl,by simp⟩
      · rw [hask,ite_self]
        simp [PktMsg.pieceNo]
      · simp [greetings,hty,hc,PktMsg.greeting]
    · simp only [if_neg hc]
      exact ⟨[],by simp,routine_nil.said (Or.inl hask) (by simp [greetings,hc])⟩
  | Choke =>
    simp only [hty] at h
    cases h
    exact ⟨[],by simp,hroutine _ routine_nil (by simp [hty])⟩
  | UnChoke =>
    simp only [hty] at h
    cases h
    exact ⟨_,rfl,hroutine _ (routine_requests _) (by simp [hty])⟩
  | Interested =>
    simp only [hty] at h
    obtain ⟨_,_,h⟩ := Outcome.bind_eq_ok.mp h
    cases h
    exact ⟨[],by simp [setNbr],hroutine _ routine_nil (by simp [hty])⟩
  | NotInterested =>
    simp only [hty] at h
    obtain ⟨_,_,h⟩ := Outcome.bind_eq_ok.mp h
    cases h
    exact ⟨[],by simp [setNbr],hroutine _ routine_nil (by simp [hty])⟩
  | Have =>
    simp only [hty] at h
    cases h
    unfold handleHave
    split
    · refine ⟨[{ type := .Interested },requestPkt pkt.have.pcno],by simp [sendInterested,send],
        hroutine _ ?_ (by simp [hty])⟩
      simp [Routine,requestPkt]
    · exact ⟨[],by simp,hroutine _ routine_nil (by simp [hty])⟩
  | BitField => exact absurd hty ht
  | Request => exact absurd hty hr
  | Piece =>
    simp only [hty] at h
    obtain ⟨_,_,_,_,rfl,_⟩ := handlePiece_eq_ok h
    exact ⟨[],by simp,hroutine _ routine_nil (by simp [hty])⟩
  | Unnamed c hc =>
    simp only [hty] at h
    cases h

theorem receive_said (h : s.receive pkt junk = .ok (s',ph')) :
    ∃ new, s'.out = s.out ++ new ∧ Said s (.packet pkt junk) new := by
  unfold receive at h
  by_cases hb : pkt.type = .BitField
  · rw [if_pos hb] at h
    obtain ⟨s₁,h₁,h⟩ := Outcome.bind_eq_ok.mp h
    cases h
    obtain ⟨pre,rfl,hpre⟩ := chokeStatusCheck_said h₁
    rw [recvBitField_eq]
    refine ⟨_,List.append_assoc _ _ _,Said.status (Routine.said ?_ (Or.inl ?_) ?_) hpre⟩
    · split
      · exact routine_single (Or.inl rfl)
      · exact routine_nil
    · simp [Event.taken,PktMsg.requestNo,hb]
    · simp [greetings,hb]
  · rw [if_neg hb] at h
    obtain ⟨s₁,h₁,h⟩ := Outcome.bind_eq_ok.mp h
    cases h
    obtain ⟨s₂,h₂,h₁⟩ := Outcome.bind_eq_ok.mp h₁
    obtain ⟨pre,rfl,hpre⟩ := chokeStatusCheck_said h₂
    obtain ⟨new,hout,hsaid⟩ := dispatch_said hb h₁
    refine ⟨pre ++ new,by rw [hout,List.append_assoc],Said.status ?_ hpre⟩
    exact ⟨hsaid.pieces,hsaid.greetings,hsaid.statuses,hsaid.held⟩

theorem answerBitField_routine (interested : Bool) (s : Session) :
    ∃ new, (s.answerBitField interested).out = s.out ++ new ∧ Routine new := by
  cases interested with
  | false => exact ⟨_,rfl,routine_single (Or.inr (Or.inr rfl))⟩
  | true =>
    rw [answerBitField_true]
    refine ⟨_,rfl,?_⟩
    split
    · exact (routine_single (Or.inr (Or.inl rfl))).append (routine_requests _)
    · exact routine_single (Or.inr (Or.inl rfl))

theorem timeout_routine (s : Session) : ∃ new, s.timeout.1.out = s.out ++ new ∧ Routine new := by
  simp only [timeout]
  split
  · exact ⟨_,List.append_assoc _ _ _,(routine_requests _).append (routine_haves _ _)⟩
  · exact ⟨_,rfl,routine_requests _⟩

/-- Everything a step sends. -/
theorem event_said (h : s.event ph ev = .ok (s',ph')) :
    ∃ new, s'.out = s.out ++ new ∧ Said s ev new := by
  have hquiet : ∀ ev : Event, ev.taken = [] → s.greetings ev = [] → ∀ new, Routine new → Said s ev new := by
    intro ev ht hg new hnew
    exact hnew.said (Or.inl (by rw [ht]; rfl)) hg
  unfold event at h
  split at h
  · rename_i self peer
    cases h
    unfold start
    by_cases hp : peer = 0
    · have hc : (Conn.new self peer).client = true := decide_eq_true hp
      simp only [hc,if_true]
      exact ⟨[],by simp,hquiet _ rfl (by simp [greetings,hp]) _ routine_nil⟩
    · have hc : (Conn.new self peer).client = false := decide_eq_false hp
      simp only [hc,Bool.false_eq_true,if_false]
      refine ⟨_,List.append_assoc _ _ _,Said.routine ⟨?_,?_,Or.inl rfl,by simp⟩ (routine_single (Or.inl rfl))⟩
      · simp [Event.taken,PktMsg.pieceNo]
      · simp [greetings,hp,PktMsg.greeting]
  · exact receive_said (Outcome.mapError_eq_ok.mp h)
  · rw [Outcome.mapError_eq_ok,expire] at h
    obtain ⟨new,hout,hnew⟩ := timeout_routine s
    have hsaid := hquiet .timeout rfl rfl new hnew
    split at h
    · cases h
      exact ⟨new,hout,hsaid⟩
    · obtain ⟨_,k,nbr,rfl⟩ := hangUp_eq_ok h
      exact ⟨new,hout,hsaid⟩
  · obtain ⟨_,k,nbr,rfl⟩ := hangUp_eq_ok (Outcome.mapError_eq_ok.mp h)
    exact ⟨[],by simp [setNbr],hquiet _ rfl rfl _ routine_nil⟩
  · obtain ⟨diff,_,h⟩ := Outcome.bind_eq_ok.mp (Outcome.mapError_eq_ok.mp h)
    cases h
    exact ⟨[],by simp,hquiet _ rfl rfl _ routine_nil⟩
  · obtain ⟨e,_,h⟩ := Outcome.bind_eq_ok.mp (Outcome.mapError_eq_ok.mp h)
    cases h
    exact ⟨[],by simp,hquiet _ rfl rfl _ routine_nil⟩
  · rename_i ret
    cases h
    obtain ⟨new,hout,hnew⟩ := answerBitField_routine ret s
    exact ⟨new,hout,hquiet _ rfl rfl _ hnew⟩
  · cases h

/-- Only a thread that is not started can be started, and only one in its loop receives. -/
theorem event_phase (h : s.event ph ev = .ok (s',ph')) :
    (∀ self peer, ev = .makeThread self peer → ph = .start) ∧
      (∀ pkt junk, ev = .packet pkt junk → ph = .ready) ∧
      (ph = .start → ∃ self peer, ev = .makeThread self peer) := by
  unfold event at h
  split at h
  case h_8 => cases h
  all_goals simp

/-- A thread has the role it was started in. -/
theorem Moved.client (hm : Moved s ph ev s' ph') :
    ph ≠ .start ∧ s'.conn.client = s.conn.client ∨ ∃ self peer, ev = .makeThread self peer ∧
      s'.conn.client = decide (peer = 0) := by
  cases hm with
  | made => exact Or.inr ⟨_,_,rfl,rfl⟩
  | kept _ _ hk => exact Or.inl ⟨nofun,hk.same.client⟩
  | stored _ ht => exact Or.inl ⟨nofun,ht.same.client⟩
  | received => exact Or.inl ⟨nofun,rfl⟩
  | compared => exact Or.inl ⟨nofun,rfl⟩
  | marked => exact Or.inl ⟨nofun,rfl⟩
  | answered =>
    rw [(answerBitField_spec _ s).2.2.1]
    exact Or.inl ⟨nofun,rfl⟩

/-- The copy that `cli_handler` keeps is never written. -/
theorem Moved.chokedPeer (hm : Moved s ph ev s' ph') (h : s.conn.chokedPeer = false) :
    s'.conn.chokedPeer = false := by
  cases hm with
  | made => rfl
  | kept _ _ hk => exact hk.same.chokedPeer.trans h
  | stored _ ht => exact ht.same.chokedPeer.trans h
  | received => exact h
  | compared => exact h
  | marked => exact h
  | answered =>
    rw [(answerBitField_spec _ s).2.2.1]
    exact h

/-- A piece that arrives is held afterwards. -/
theorem Moved.stores (hm : Moved s ph (.packet pkt junk) s' ph') (ht : pkt.type = .Piece) :
    s'.ost.bfield.exists (toInt pkt.piece.pcno.toNat) = .ok true := by
  cases hm with
  | kept hev _ _ => exact absurd ht (hev pkt junk rfl).2
  | stored _ hturn =>
    obtain ⟨p,hp,hlt,hset⟩ := hturn.stored ht
    rw [hset]
    exact Bfield.exists_eq_ok.mpr ⟨p,hp,by simpa using hlt,by simp [bitAt_setAt hlt]⟩
  | received hb _ =>
    rw [ht] at hb
    cases hb

end Session

theorem Node.exec_event {ι : Type} [DecidableEq ι] {n n' : Node ι} {c : ι} {ev : Event} {out : List PktMsg}
    (h : n.exec (.thread c ev) = .ok (out,n')) : ∃ r, (n.session c).event (n.threads c).phase ev = .ok r ∧
      out = r.1.out ∧ n' = n.put c r := by
  obtain ⟨r,hr,h⟩ := Outcome.bind_eq_ok.mp h
  cases h
  exact ⟨r,hr,rfl,rfl⟩

end BTRx
