import BTRx.NbrMap.OptUnchoke
import BTRx.Network.Conservation
import BTRx.Node.Flags

/-! # The gate of the unchoke threads in a mesh

A connecting end greets once, and an accepting end answers each greeting. So no end hears
more than one, and a node registers at most one neighbour for each of its links. In a full
mesh that is one less than the number `npeers` starts with: neither unchoke thread ever gets
past its first test.
-/
namespace BTRx
open ByteSet Memory LittleEndian Transition
open Session

namespace Network
variable {host : End → ℕ} {net₀ net net' : Network} {hist : List (Network × NetAct × List PktMsg)}
variable {a : NetAct} {e : End} {ev : Event} {r : Session × Phase} {out : List PktMsg}

/-- The handshakes an end has handled. -/
def heard (hist : List (Network × NetAct × List PktMsg)) (e : End) : ℕ :=
  ((Fifo.taken e (turns hist)).filterMap PktMsg.greeting).length

/-- The handshakes an end has sent. -/
def greeted (hist : List (Network × NetAct × List PktMsg)) (e : End) : ℕ :=
  ((Fifo.sent e (turns hist)).filterMap PktMsg.greeting).length

structure Greeted (host : End → ℕ) (hist : List (Network × NetAct × List PktMsg)) (net : Network) : Prop where
  role : ∀ e, (net.thread host e).phase ≠ .start → (net.thread host e).conn.client = e.acceptor
  answers : ∀ e, e.acceptor = true → Fifo.Responds PktMsg.greeting PktMsg.greeting e (turns hist)
  once : ∀ e, e.acceptor = false → greeted hist e ≤ (net.thread host e).started

theorem Played.phase (h : Played host net a out net' e ev r) :
    (net'.thread host e).phase ≠ .start := by
  rw [h.self]
  exact (event_table h.event).1

theorem Played.client (h : Played host net a out net' e ev r)
    (hrole : (net.thread host e).phase ≠ .start → (net.thread host e).conn.client = e.acceptor) :
    (net'.thread host e).conn.client = e.acceptor := by
  rw [h.self]
  rcases h.moved.client with ⟨hph,hsame⟩ | ⟨self,peer,hev,hnew⟩
  · exact hsame.trans (hrole hph)
  · exact hnew.trans (h.role self peer hev)

/-- The handshakes of a turn. -/
theorem Played.greets (h : Played host net a out net' e ev r)
    (hrole : (net.thread host e).phase ≠ .start → (net.thread host e).conn.client = e.acceptor) :
    (e.acceptor = true → out.filterMap PktMsg.greeting = ev.taken.filterMap PktMsg.greeting) ∧
      (e.acceptor = false → (out.filterMap PktMsg.greeting).length + (net.thread host e).started ≤ 1) := by
  rw [h.said.greetings]
  cases ev with
  | makeThread self peer =>
    have hph := (event_phase h.event).1 self peer rfl
    have hpeer := h.role self peer rfl
    refine ⟨fun hacc => ?_,fun hacc => ?_⟩
    · rw [hacc,decide_eq_true_eq] at hpeer
      simp [greetings,hpeer,Event.taken]
    · rw [hacc,decide_eq_false_iff_not] at hpeer
      simp [greetings,hpeer,Thread.started,hph]
  | packet pkt junk =>
    have hph := (event_phase h.event).2.1 pkt junk rfl
    have hclient := hrole (by rw [hph]; simp)
    replace hclient : ((net.nodes (host e)).session e).conn.client = e.acceptor := hclient
    refine ⟨fun hacc => ?_,fun hacc => ?_⟩
    · by_cases ht : pkt.type = .Handshake <;>
        simp [greetings,hclient,hacc,Event.taken,PktMsg.greeting,ht]
    · simp only [greetings,hclient,hacc,Bool.false_eq_true,and_false,if_false,List.length_nil,Thread.started]
      split <;> omega
  | resume | timeout | eof =>
    refine ⟨fun _ => rfl,fun _ => ?_⟩
    simp only [greetings,List.length_nil,Thread.started]
    split <;> omega

theorem Played.greeted (h : Played host net a out net' e ev r) (hg : Greeted host hist net) :
    Greeted host ((net,a,out) :: hist) net' := by
  have hturn := h.greets (hg.role e)
  refine ⟨fun d hd => ?_,fun d hacc => ?_,fun d hacc => ?_⟩
  · by_cases hde : d = e
    · subst hde
      exact h.client (hg.role d)
    · rw [h.other hde] at hd ⊢
      exact hg.role d hd
  · rw [h.turns]
    refine List.forall_mem_cons.mpr ⟨?_,hg.answers d hacc⟩
    rintro rfl
    exact hturn.1 hacc
  · have hold := hg.once d hacc
    unfold Network.greeted at hold ⊢
    rw [h.turns]
    by_cases hde : e = d
    · subst hde
      rw [show Fifo.sent e (⟨e,ev.taken,out⟩ :: Network.turns hist) =
          Fifo.sent e (Network.turns hist) ++ out from Fifo.sent_self rfl,
        List.filterMap_append,List.length_append]
      have hnew := hturn.2 hacc
      have hstarted : (net'.thread host e).started = 1 := if_neg h.phase
      omega
    · rw [Fifo.sent_other hde,h.other (Ne.symm hde)]
      exact hold

theorem greeted_run (h₀ : ∀ e, net₀.thread host e = Thread.new)
    (run : Run (ExecStep (Network.exec host)) net₀ hist net) : Greeted host hist net := by
  refine run.always (P := Greeted host) ⟨fun e he => ?_,fun e _ t ht => ?_,fun e _ => ?_⟩ ?_
  · exact absurd (by rw [h₀ e]; rfl) he
  · exact absurd ht List.not_mem_nil
  · exact Nat.zero_le _
  rintro hist net ⟨a,out⟩ net' hg hstep
  rcases exec_played hstep with ⟨i,k,choked,rfl,rfl⟩ | ⟨e,ev,r,hp⟩
  · have hthread : ∀ d, Network.thread host { net with
        nodes := Function.update net.nodes i ((net.nodes i).leaveChoked k choked) } d = net.thread host d := by
      intro d
      rw [thread,(choke_frame i k choked net (host d)).2]
      rfl
    refine ⟨fun d hd => ?_,fun d hacc => ?_,fun d hacc => ?_⟩
    · rw [hthread] at hd ⊢
      exact hg.role d hd
    · rw [turns_choke]
      exact hg.answers d hacc
    · rw [hthread,Network.greeted,turns_choke]
      exact hg.once d hacc
  · exact hp.greeted hg

/-- No end handles more than one Handshake. -/
theorem heard_le_one (hchan : ∀ e, net₀.chan e = []) (h₀ : ∀ e, net₀.thread host e = Thread.new)
    (run : Run (ExecStep (Network.exec host)) net₀ hist net) (e : End) : heard hist e ≤ 1 := by
  have hg := greeted_run h₀ run
  have hfifo := chan_conserved hchan run
  have hle : ∀ e : End, heard hist e ≤ greeted hist e.peer := by
    intro e
    rw [heard,greeted,hfifo e.peer,End.peer_peer,List.filterMap_append,List.length_append]
    exact Nat.le_add_right _ _
  have hone : ∀ e : End, e.acceptor = false → greeted hist e ≤ 1 :=
    fun e hacc => (hg.once e hacc).trans (by unfold Thread.started; split <;> omega)
  cases hacc : e.acceptor with
  | true => exact (hle e).trans (hone e.peer (by simp [End.peer,hacc]))
  | false =>
    have hback : e.peer.acceptor = true := by simp [End.peer,hacc]
    calc heard hist e ≤ greeted hist e.peer := hle e
      _ = heard hist e.peer := congrArg List.length (hg.answers e.peer hback).answers
      _ ≤ greeted hist e.peer.peer := hle e.peer
      _ ≤ 1 := by
        rw [End.peer_peer]
        exact hone e hacc

/-! ## The counter -/

theorem heard_cons (h : Played host net a out net' e ev r) (d : End) : heard ((net,a,out) :: hist) d =
    heard hist d + if e = d then (ev.taken.filterMap PktMsg.greeting).length else 0 := by
  unfold heard
  rw [h.turns]
  by_cases hd : e = d
  · rw [if_pos hd,show Fifo.taken d (⟨e,ev.taken,out⟩ :: turns hist) =
      Fifo.taken d (turns hist) ++ ev.taken from Fifo.taken_self hd,List.filterMap_append,List.length_append]
  · rw [if_neg hd,Fifo.taken_other hd,Nat.add_zero]

/-- The counter of a node with the ends `S`. -/
theorem npeers_conserved {S : Finset End} {i : ℕ} (hS : ∀ e, e ∈ S ↔ host e = i)
    (run : Run (ExecStep (Network.exec host)) net₀ hist net) :
    (net.nodes i).nmap.npeers + UInt32.ofNat (∑ e ∈ S, heard hist e) = (net₀.nodes i).nmap.npeers := by
  refine run.always (P := fun hist net =>
    (net.nodes i).nmap.npeers + UInt32.ofNat (∑ e ∈ S, heard hist e) = (net₀.nodes i).nmap.npeers) ?_ ?_
  · have hzero : ∑ e ∈ S, heard [] e = 0 := Finset.sum_eq_zero fun _ _ => rfl
    rw [hzero]
    exact add_zero _
  rintro hist net ⟨a,out⟩ net' h hstep
  rcases exec_played hstep with ⟨j,k,choked,rfl,rfl⟩ | ⟨e,ev,r,hp⟩
  · have hsame : ∀ e, heard ((net,.choke j k choked,out) :: hist) e = heard hist e := by
      intro e
      rw [heard,turns_choke,heard]
    simp only [hsame]
    rw [← h]
    by_cases hij : i = j
    · subst hij
      rw [Function.update_self]
      rfl
    · rw [Function.update_of_ne hij]
  · simp only [heard_cons hp,Finset.sum_add_distrib,Finset.sum_ite_eq,hS]
    rw [← h]
    by_cases hi : host e = i
    · subst hi
      have hcount := event_npeers hp.event
      have hput : (net'.nodes (host e)).nmap = r.1.nmap := by simp [hp.nodes,Node.put]
      rw [← handshake_taken] at hcount
      rw [if_pos rfl,UInt32.ofNat_add,hput,← add_assoc,add_right_comm,hcount]
      rfl
    · rw [if_neg hi,hp.away (Ne.symm hi),Nat.add_zero]

/-- The end at `i` of the link between two nodes; the one listed later connects. -/
def meshEnd (i k : ℕ) : End := if i < k then ⟨Nat.pair i k,true⟩ else ⟨Nat.pair k i,false⟩

/-- The hosts of a full mesh of `n` nodes, with one link for each pair. Links that are not
in the mesh are away from its nodes. -/
def meshHost (n : ℕ) (e : End) : ℕ :=
  let (i,j) := Nat.unpair e.link
  if i < j ∧ j < n then if e.acceptor then i else j else n

theorem meshHost_eq {n i : ℕ} (hi : i < n) (e : End) :
    e ∈ ((Finset.range n).erase i).image (meshEnd i) ↔ meshHost n e = i := by
  obtain ⟨l,acc⟩ := e
  have hl := Nat.pair_unpair l
  generalize Nat.unpair l = ij at hl
  obtain ⟨x,y⟩ := ij
  subst hl
  simp only [meshHost,Nat.unpair_pair,Finset.mem_image,Finset.mem_erase,Finset.mem_range,meshEnd]
  constructor
  · rintro ⟨k,⟨hki,hk⟩,heq⟩
    split_ifs at heq with hlt
    · obtain ⟨hpair,rfl⟩ := End.mk.inj heq
      obtain ⟨rfl,rfl⟩ := Nat.pair_eq_pair.mp hpair
      rw [if_pos ⟨hlt,hk⟩,if_pos rfl]
    · obtain ⟨hpair,rfl⟩ := End.mk.inj heq
      obtain ⟨rfl,rfl⟩ := Nat.pair_eq_pair.mp hpair
      rw [if_pos ⟨by omega,hi⟩,if_neg Bool.false_ne_true]
  · intro h
    by_cases hxy : x < y ∧ y < n
    · rw [if_pos hxy] at h
      cases acc with
      | true =>
        obtain rfl : x = i := by simpa using h
        exact ⟨y,⟨by omega,hxy.2⟩,by rw [if_pos hxy.1]⟩
      | false =>
        obtain rfl : y = i := by simpa using h
        exact ⟨x,⟨by omega,by omega⟩,by rw [if_neg (by omega)]⟩
    · rw [if_neg hxy] at h
      omega

/-- In every run of a mesh, each unchoke thread that looks finds the gate closed: it goes
back to sleep, and no neighbour has been looked at. -/
theorem mesh_gate_closed {fsz pcsz n : ℕ} (h₀ : net₀.Initial fsz pcsz) (hn : n < 2 ^ 32)
    (hcount : ∀ i < n, (net₀.nodes i).nmap.npeers = UInt32.ofNat n)
    (run : Run (ExecStep (Network.exec (meshHost n))) net₀ hist net) {i : ℕ} (hi : i < n) :
    (∀ nPrefPeers, (net.nodes i).nmap.selectUnchoked nPrefPeers = .ok (true,(net.nodes i).nmap)) ∧
      ∀ rand fuel, (net.nodes i).nmap.optUnchoke rand fuel = .ok (some (true,(net.nodes i).nmap)) := by
  have hsum := npeers_conserved (meshHost_eq hi) run
  have hle : ∑ e ∈ ((Finset.range n).erase i).image (meshEnd i), heard hist e ≤ n - 1 := by
    calc ∑ e ∈ ((Finset.range n).erase i).image (meshEnd i), heard hist e
        ≤ (((Finset.range n).erase i).image (meshEnd i)).card * 1 :=
          Finset.sum_le_card_nsmul _ _ 1 fun e _ =>
            heard_le_one h₀.chan (fun e => (h₀.fresh _).threads e) run e
      _ ≤ ((Finset.range n).erase i).card := by
        rw [Nat.mul_one]
        exact Finset.card_image_le
      _ = n - 1 := by rw [Finset.card_erase_of_mem (Finset.mem_range.mpr hi),Finset.card_range]
  have hpos : (net.nodes i).nmap.npeers ≠ 0 := by
    intro hz
    rw [hz,zero_add,hcount i hi,← UInt32.toNat_inj,UInt32.toNat_ofNat',UInt32.toNat_ofNat',
      Nat.mod_eq_of_lt (by omega),Nat.mod_eq_of_lt hn] at hsum
    omega
  refine ⟨fun nPrefPeers => ?_,fun rand fuel => ?_⟩
  · rw [NbrMap.selectUnchoked,if_pos hpos]
    rfl
  · rw [NbrMap.optUnchoke,if_pos hpos]

/-- Two nodes after both handshakes. -/
theorem mesh_gate_closed_two : ∃ hist net, Run (ExecStep (Network.exec (meshHost 2))) two hist net ∧
    (net.nodes 0).nmap.peers = [2] ∧ (net.nodes 1).nmap.peers = [1] ∧
    (∀ nPrefPeers, (net.nodes 0).nmap.selectUnchoked nPrefPeers = .ok (true,(net.nodes 0).nmap)) ∧
      ∀ rand fuel, (net.nodes 0).nmap.optUnchoke rand fuel = .ok (some (true,(net.nodes 0).nmap)) := by
  obtain ⟨hist,net,run,h⟩ := @exists_run _ _ _ _ (Network.exec (meshHost 2)) two
    [.event ⟨1,true⟩ (.makeThread 1 0),.event ⟨1,false⟩ (.makeThread 2 1),.deliver ⟨1,true⟩ [],
      .deliver ⟨1,false⟩ []]
    (fun _ net => (net.nodes 0).nmap.peers == [2] && (net.nodes 1).nmap.peers == [1]) (by decide +kernel)
  rw [Bool.and_eq_true,beq_iff_eq,beq_iff_eq] at h
  exact ⟨hist,net,run,h.1,h.2,mesh_gate_closed two_initial (by norm_num) (fun _ _ => rfl) run (by decide)⟩

end Network

end BTRx
