import BTRx.Network.Honest

/-! # No request is lost between two ends

Every step of the network is a turn of an end on its two queues. A Request is answered with
its piece in the turn that takes it, so what an end has asked for is what has come back,
what is on its way back and what is on its way out, in the order in which it was asked
for. Pieces that come back are stored, and a piece is only ever stored next to a node that
has it.
-/
namespace BTRx
open ByteSet Memory LittleEndian Transition
open Session

namespace Network
variable {host : End → ℕ} {net₀ net net' : Network} {hist : List (Network × NetAct × List PktMsg)}
variable {a : NetAct} {e : End} {ev : Event} {r : Session × Phase} {out : List PktMsg}

/-- The turns of a history, newest first. -/
def turns (hist : List (Network × NetAct × List PktMsg)) : List (Fifo.Turn End PktMsg) :=
  hist.filterMap turn

theorem turns_choke {i k : ℕ} {choked : Bool} :
    turns ((net,.choke i k choked,out) :: hist) = turns hist := List.filterMap_cons_none rfl

theorem Played.turns (h : Played host net a out net' e ev r) :
    turns ((net,a,out) :: hist) = ⟨e,ev.taken,out⟩ :: turns hist := List.filterMap_cons_some h.turn

/-! ## The queues -/

/-- The queues hold what was sent and not yet taken. -/
theorem chan_conserved (h₀ : ∀ e, net₀.chan e = []) (run : Run (ExecStep (Network.exec host)) net₀ hist net) :
    Fifo.Conserved End.peer (turns hist) net.chan := by
  refine run.always (P := fun hist net => Fifo.Conserved End.peer (turns hist) net.chan)
    (Fifo.conserved_nil h₀) ?_
  rintro hist net ⟨a,out⟩ net' h hstep
  rcases exec_played hstep with ⟨i,k,choked,rfl,rfl⟩ | ⟨e,ev,r,hp⟩
  · rw [turns_choke]
    exact h
  · rw [hp.turns]
    exact h.step End.peer_peer End.peer_ne hp.chan

/-- Every end answers each Request with its piece, in order. -/
theorem pieces_answer (h₀ : ∀ e, net₀.thread host e = Thread.new)
    (run : Run (ExecStep (Network.exec host)) net₀ hist net) (e : End) :
    Fifo.Responds PktMsg.requestNo PktMsg.pieceNo e (turns hist) := by
  suffices hall : (∀ e, (net.thread host e).conn.chokedPeer = false) ∧
      ∀ e, Fifo.Responds PktMsg.requestNo PktMsg.pieceNo e (turns hist) from hall.2 e
  refine run.always (P := fun hist net => (∀ e, (net.thread host e).conn.chokedPeer = false) ∧
    ∀ e, Fifo.Responds PktMsg.requestNo PktMsg.pieceNo e (turns hist)) ⟨fun e => ?_,fun e t ht => ?_⟩ ?_
  · rw [h₀ e]
    rfl
  · exact absurd ht List.not_mem_nil
  rintro hist net ⟨a,out⟩ net' ⟨hcp,hresp⟩ hstep
  rcases exec_played hstep with ⟨i,k,choked,rfl,rfl⟩ | ⟨e,ev,r,hp⟩
  · rw [turns_choke]
    refine ⟨fun d => ?_,hresp⟩
    simp only [thread,(choke_frame i k choked net (host d)).2]
    exact hcp d
  · rw [hp.turns]
    refine ⟨fun d => ?_,fun d => List.forall_mem_cons.mpr ⟨fun _ => ?_,hresp d⟩⟩
    · by_cases hd : d = e
      · subst hd
        rw [hp.self]
        exact hp.moved.chokedPeer (hcp d)
      · rw [hp.other hd]
        exact hcp d
    · have hpieces := hp.said.pieces
      rwa [if_neg (by rw [show ((net.nodes (host e)).session e).conn.chokedPeer = false from hcp e]; simp)]
        at hpieces

/-- What an end has asked for has come back, is on its way back or is on its way out. -/
theorem requests_conserved {fsz pcsz : ℕ} (h₀ : net₀.Initial fsz pcsz)
    (run : Run (ExecStep (Network.exec host)) net₀ hist net) (e : End) :
    (Fifo.sent e (turns hist)).filterMap PktMsg.requestNo =
      (Fifo.taken e (turns hist)).filterMap PktMsg.pieceNo ++
        (net.chan e.peer).filterMap PktMsg.pieceNo ++ (net.chan e).filterMap PktMsg.requestNo :=
  (chan_conserved h₀.chan run).calls End.peer_peer
    (pieces_answer (fun e => (h₀.fresh (host e)).threads e) run e.peer)

theorem two_initial : two.Initial 1 1 := by
  refine ⟨by decide,by decide,fun _ => ⟨?_,?_,rfl,fun _ => rfl⟩,fun _ => rfl,fun _ => rfl⟩
  · exact show 1 < 2 ^ 31 by decide
  · exact show 1 = (1 + 7) / 8 by decide

/-- The only request, with its piece on the way back. -/
theorem requests_conserved_one : ∃ hist net, Run (ExecStep (Network.exec hostOfTwo)) two hist net ∧
    (Fifo.sent ⟨0,false⟩ (turns hist)).filterMap PktMsg.requestNo = [0] ∧
    (net.chan ⟨0,true⟩).filterMap PktMsg.pieceNo = [0] ∧
    (Fifo.sent ⟨0,false⟩ (turns hist)).filterMap PktMsg.requestNo =
      (Fifo.taken ⟨0,false⟩ (turns hist)).filterMap PktMsg.pieceNo ++
        (net.chan (End.peer ⟨0,false⟩)).filterMap PktMsg.pieceNo ++
          (net.chan ⟨0,false⟩).filterMap PktMsg.requestNo := by
  obtain ⟨hist,net,run,h⟩ := @exists_run _ _ _ _ (Network.exec hostOfTwo) two
    (opening ++ [.deliver ⟨0,true⟩ []])
    (fun hist net => (Fifo.sent ⟨0,false⟩ (turns hist)).filterMap PktMsg.requestNo == [0] &&
      (net.chan ⟨0,true⟩).filterMap PktMsg.pieceNo == [0]) (by decide +kernel)
  rw [Bool.and_eq_true,beq_iff_eq,beq_iff_eq] at h
  exact ⟨hist,net,run,h.1,h.2,requests_conserved two_initial run _⟩

/-! ## The pieces -/

theorem exists_toInt {b : Bfield} {q : UInt32} :
    b.exists (toInt q.toNat) = .ok true ↔ toInt q.toNat = q.toNat ∧ bitAt b.bfield q.toNat = true := by
  rw [Bfield.exists_eq_ok]
  constructor
  · rintro ⟨p,hp,_,hbit⟩
    have hq : toInt q.toNat = q.toNat :=
      toInt_of_nonneg (Int.natCast_nonneg _) (by exact_mod_cast q.toNat_lt) (by omega)
    obtain rfl : q.toNat = p := by exact_mod_cast hq.symm.trans hp
    exact ⟨hp,hbit.symm⟩
  · rintro ⟨hq,hbit⟩
    exact ⟨q.toNat,hq,lt_of_bitAt hbit,hbit.symm⟩

theorem Played.keeps_exists (h : Played host net a out net' e ev r) {i : ℕ} {q : UInt32}
    (hq : (net.nodes i).ost.bfield.exists (toInt q.toNat) = .ok true) :
    (net'.nodes i).ost.bfield.exists (toInt q.toNat) = .ok true := by
  rw [exists_toInt] at hq ⊢
  exact ⟨hq.1,h.keeps hq.2⟩

/-- The turn that takes a piece stores it. -/
theorem Played.stores (h : Played host net a out net' e ev r) {m : PktMsg} (hm : m ∈ ev.taken)
    (ht : m.type = .Piece) :
    (net'.nodes (host e)).ost.bfield.exists (toInt m.piece.pcno.toNat) = .ok true := by
  rw [h.own]
  cases ev with
  | packet pkt junk =>
    obtain rfl := List.mem_singleton.mp hm
    exact h.moved.stores ht
  | _ => cases hm

theorem choke_exists (i k : ℕ) (choked : Bool) (net : Network) (j : ℕ) :
    ((Function.update net.nodes i ((net.nodes i).leaveChoked k choked)) j).ost.bfield =
      (net.nodes j).ost.bfield := by
  rw [(choke_frame i k choked net j).1]

/-- A piece that has come back is held. -/
theorem taken_held (run : Run (ExecStep (Network.exec host)) net₀ hist net) (e : End) :
    ∀ m ∈ Fifo.taken e (turns hist), m.type = .Piece →
      (net.nodes (host e)).ost.bfield.exists (toInt m.piece.pcno.toNat) = .ok true := by
  revert e
  refine run.always (P := fun hist net => ∀ e, ∀ m ∈ Fifo.taken e (turns hist), m.type = .Piece →
      (net.nodes (host e)).ost.bfield.exists (toInt m.piece.pcno.toNat) = .ok true)
    (fun e m hm => absurd hm List.not_mem_nil) ?_
  rintro hist net ⟨a,out⟩ net' h hstep e m hm ht
  rcases exec_played hstep with ⟨i,k,choked,rfl,rfl⟩ | ⟨d,ev,r,hp⟩
  · rw [turns_choke] at hm
    rw [choke_exists]
    exact h e m hm ht
  · rw [hp.turns] at hm
    by_cases hd : d = e
    · subst hd
      rw [show Fifo.taken d (⟨d,ev.taken,out⟩ :: turns hist) = _ from Fifo.taken_self rfl] at hm
      rcases List.mem_append.mp hm with hm | hm
      · exact hp.keeps_exists (h d m hm ht)
      · exact hp.stores hm ht
    · rw [Fifo.taken_other hd] at hm
      exact hp.keeps_exists (h e m hm ht)

/-- A request is answered in the end, unless something of it is still on the link. -/
theorem request_not_lost {fsz pcsz : ℕ} (h₀ : net₀.Initial fsz pcsz)
    (run : Run (ExecStep (Network.exec host)) net₀ hist net) (e : End) {q : UInt32}
    (hq : q ∈ (Fifo.sent e (turns hist)).filterMap PktMsg.requestNo) :
    (net.nodes (host e)).ost.bfield.exists (toInt q.toNat) = .ok true ∨
      q ∈ (net.chan e.peer).filterMap PktMsg.pieceNo ∨ q ∈ (net.chan e).filterMap PktMsg.requestNo := by
  have hcalls := (chan_conserved h₀.chan run).calls End.peer_peer
    (pieces_answer (fun e => (h₀.fresh (host e)).threads e) run e.peer)
  rw [hcalls,List.mem_append,List.mem_append,or_assoc] at hq
  refine hq.imp_left fun hq => ?_
  obtain ⟨m,hm,hno⟩ := List.mem_filterMap.mp hq
  obtain ⟨ht,rfl⟩ : m.type = .Piece ∧ m.piece.pcno = q := by simpa [PktMsg.pieceNo] using hno
  exact taken_held run e m hm ht

/-- The program that asks for the only piece and stores it. -/
def fetching : List NetAct :=
  opening ++ [.deliver ⟨0,true⟩ [],.deliver ⟨0,false⟩ [],.deliver ⟨0,false⟩ []]

theorem request_not_lost_one : ∃ hist net, Run (ExecStep (Network.exec hostOfTwo)) two hist net ∧
    (net.chan ⟨0,true⟩).filterMap PktMsg.pieceNo = [] ∧ (net.chan ⟨0,false⟩).filterMap PktMsg.requestNo = [] ∧
    ((net.nodes 1).ost.bfield.exists (toInt (0 : UInt32).toNat) = .ok true ∨
      0 ∈ (net.chan (End.peer ⟨0,false⟩)).filterMap PktMsg.pieceNo ∨
      0 ∈ (net.chan ⟨0,false⟩).filterMap PktMsg.requestNo) := by
  obtain ⟨hist,net,run,h⟩ := @exists_run _ _ _ _ (Network.exec hostOfTwo) two fetching
    (fun hist net => decide ((0 : UInt32) ∈ (Fifo.sent ⟨0,false⟩ (turns hist)).filterMap PktMsg.requestNo) &&
      (net.chan ⟨0,true⟩).filterMap PktMsg.pieceNo == [] &&
      (net.chan ⟨0,false⟩).filterMap PktMsg.requestNo == []) (by decide +kernel)
  rw [Bool.and_eq_true,Bool.and_eq_true,beq_iff_eq,beq_iff_eq,decide_eq_true_eq] at h
  exact ⟨hist,net,run,h.1.2,h.2,request_not_lost two_initial run ⟨0,false⟩ h.1.1⟩

/-- Two nodes with a link between them. -/
def Joined (host : End → ℕ) (i j : ℕ) : Prop := ∃ e : End, host e.peer = i ∧ host e = j

/-- A piece that has been sent is held by the sender. -/
def Backed (host : End → ℕ) (net : Network) : Prop := ∀ e, ∀ m ∈ net.chan e, m.type = .Piece →
  (net.nodes (host e)).ost.bfield.exists (toInt m.piece.pcno.toNat) = .ok true

theorem Played.backed (h : Played host net a out net' e ev r) (hb : Backed host net) : Backed host net' := by
  intro d m hm ht
  by_cases hd : d = e
  · subst hd
    have hchan := h.chan.appended
    simp only at hchan
    rw [hchan] at hm
    apply h.keeps_exists
    rcases List.mem_append.mp hm with hm | hm
    · exact hb d m hm ht
    · exact h.said.held m hm ht
  · apply h.keeps_exists
    apply hb d m _ ht
    by_cases hback : d = e.peer
    · subst hback
      have hrec := h.chan.received
      simp only at hrec
      rw [hrec]
      exact List.mem_append_right _ hm
    · rwa [h.chan.frame d hd hback] at hm

/-- Every piece a node holds has come over links from a node that had it at the start. -/
theorem held_origin (h₀ : ∀ e, net₀.chan e = []) (run : Run (ExecStep (Network.exec host)) net₀ hist net)
    {i p : ℕ} (hp : bitAt (net.nodes i).ost.bfield.bfield p = true) :
    ∃ j, bitAt (net₀.nodes j).ost.bfield.bfield p = true ∧ Relation.ReflTransGen (Joined host) j i := by
  suffices hall : Backed host net ∧ ∀ i p, bitAt (net.nodes i).ost.bfield.bfield p = true →
      ∃ j, bitAt (net₀.nodes j).ost.bfield.bfield p = true ∧ Relation.ReflTransGen (Joined host) j i from
    hall.2 i p hp
  refine run.preserves (P := fun net => Backed host net ∧ ∀ i p, bitAt (net.nodes i).ost.bfield.bfield p = true →
    ∃ j, bitAt (net₀.nodes j).ost.bfield.bfield p = true ∧ Relation.ReflTransGen (Joined host) j i) ?_ ?_
  · refine ⟨fun e m hm => ?_,fun i p hp => ⟨i,hp,.refl⟩⟩
    rw [h₀ e] at hm
    exact absurd hm List.not_mem_nil
  rintro net ⟨a,out⟩ net' ⟨hb,h⟩ hstep
  rcases exec_played hstep with ⟨i,k,choked,rfl,rfl⟩ | ⟨e,ev,r,hplay⟩
  · refine ⟨fun e m hm ht => ?_,fun j p hp => ?_⟩
    · rw [choke_exists]
      exact hb e m hm ht
    · rw [choke_exists] at hp
      exact h j p hp
  · refine ⟨hplay.backed hb,fun i p hp => ?_⟩
    by_cases hold : bitAt (net.nodes i).ost.bfield.bfield p = true
    · exact h i p hold
    · have hi : i = host e := by
        by_contra hi
        rw [hplay.away hi] at hp
        exact hold hp
      subst hi
      rw [hplay.own] at hp
      obtain ⟨pkt,junk,rfl,ht,rfl,_⟩ := hplay.moved.held_new hp hold
      have hin : pkt ∈ net.chan e.peer := by
        have hrec := hplay.chan.received
        simp only [Event.taken] at hrec
        rw [hrec]
        exact List.mem_cons_self
      obtain ⟨j,hj,hpath⟩ := h (host e.peer) _ (exists_toInt.mp (hb e.peer pkt hin ht)).2
      exact ⟨j,hj,hpath.tail ⟨e,rfl,rfl⟩⟩

theorem held_origin_one : ∃ hist net, Run (ExecStep (Network.exec hostOfTwo)) two hist net ∧
    bitAt (net.nodes 1).ost.bfield.bfield 0 = true ∧
    ∃ j, bitAt (two.nodes j).ost.bfield.bfield 0 = true ∧ Relation.ReflTransGen (Joined hostOfTwo) j 1 := by
  obtain ⟨hist,net,run,h⟩ := @exists_run _ _ _ _ (Network.exec hostOfTwo) two fetching
    (fun _ net => bitAt (net.nodes 1).ost.bfield.bfield 0) (by decide +kernel)
  exact ⟨hist,net,run,h,held_origin (fun _ => rfl) run h⟩

end Network

end BTRx
