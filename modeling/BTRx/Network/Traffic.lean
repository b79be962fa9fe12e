import BTRx.Network.Exchange
import BTRx.Network.Conservation
import BTRx.Node.Reply

/-! # The traffic comes to an end

A Request is answered with a piece and with all requests of the other end, so that packets
breed packets. Where nobody is choked they die out all the same: a connection has a life of few
timeouts, its greetings and bitfields are soon through, and what is left is an exchange.
-/
namespace BTRx
open ByteSet Memory LittleEndian Transition
open Session

/-! ## Weights -/

/-- Packets by the weights of their types. -/
def weigh (w : MessageType → ℕ) (l : List PktMsg) : ℕ := (l.map fun m => w m.type).sum

/-- A greeting or a bitfield that comes to an accepting end is answered with one. -/
def helloWeight (acceptor : Bool) : MessageType → ℕ
  | .Handshake => if acceptor then 2 else 1
  | .BitField => if acceptor then 4 else 2
  | _ => 0

def haveWeight : MessageType → ℕ
  | .Have => 1
  | _ => 0

def noteWeight : MessageType → ℕ
  | .Interested | .NotInterested => 1
  | _ => 0

section
variable {w : MessageType → ℕ} {l l' : List PktMsg} {m : PktMsg}

@[simp] theorem weigh_nil (w : MessageType → ℕ) : weigh w [] = 0 := rfl

@[simp] theorem weigh_cons (w : MessageType → ℕ) (m : PktMsg) (l : List PktMsg) :
    weigh w (m :: l) = w m.type + weigh w l := by simp [weigh]

@[simp] theorem weigh_append (w : MessageType → ℕ) (l l' : List PktMsg) :
    weigh w (l ++ l') = weigh w l + weigh w l' := by simp [weigh]

theorem weigh_of_type {t : MessageType} (h : ∀ m ∈ l, m.type = t) : weigh w l = l.length * w t := by
  induction l with
  | nil => simp
  | cons m l ih =>
    rw [List.forall_mem_cons] at h
    rw [weigh_cons,h.1,ih h.2,List.length_cons,Nat.succ_mul,Nat.add_comm]

theorem weigh_requests (hw : w .Request = 0) (reqs : Reqs) : weigh w (reqs.keys.map requestPkt) = 0 := by
  rw [weigh_of_type (t := .Request),hw,Nat.mul_zero]
  intro m hm
  obtain ⟨q,_,rfl⟩ := List.mem_map.mp hm
  rfl

end

/-- What a thread has left of its timeouts. -/
def Thread.life (t : Thread) : ℕ :=
  match t.phase with
  | .start => 7
  | .closed => 0
  | _ => 6 - t.conn.ntimeouts

def Thread.toCompare (t : Thread) : ℕ := if t.phase = .diffing then 1 else 0

def Thread.toMark (t : Thread) : ℕ :=
  match t.phase with
  | .marking todo _ => todo.length + 1
  | _ => 0

namespace Network
variable (host : End → ℕ)

/-- The exchange on a link. -/
def exchange (net : Network) (l : ℕ) : Exchange.State UInt32 := fun b =>
  ⟨(net.thread host ⟨l,b⟩).conn.reqs.keys.toFinset,(net.chan ⟨l,b⟩).filterMap PktMsg.message⟩

def life (net : Network) (e : End) : ℕ := (net.thread host e).life

def hellos (net : Network) (e : End) : ℕ :=
  weigh (helloWeight e.acceptor) (net.chan e.peer) + (net.thread host e).toCompare

def news (net : Network) (e : End) : ℕ := weigh haveWeight (net.chan e.peer) + (net.thread host e).toMark

def notes (net : Network) (e : End) : ℕ := weigh noteWeight (net.chan e.peer)

/-- What can still come of a link: a later number counts only where the ones before it stay. -/
def rank (net : Network) (l : ℕ) : ℕ ×ₗ ℕ ×ₗ ℕ ×ₗ ℕ :=
  toLex (net.life host ⟨l,true⟩ + net.life host ⟨l,false⟩,
    toLex (net.hellos host ⟨l,true⟩ + net.hellos host ⟨l,false⟩,
      toLex (net.news host ⟨l,true⟩ + net.news host ⟨l,false⟩,
        Exchange.total (net.exchange host l) + (net.notes ⟨l,true⟩ + net.notes ⟨l,false⟩))))

variable {host} {net net' : Network} {e : End} {a : NetAct} {ev : Event} {r : Session × Phase} {out : List PktMsg}

/-- Nobody is choked or told so, and the threads are within their time. -/
structure Calm (host : End → ℕ) (net : Network) : Prop where
  nbrs : ∀ i, ∀ nbr ∈ (net.nodes i).nmap.nbrs, nbr.choked = false
  copies : ∀ e, (net.thread host e).conn.chokedPeer = false
  believed : ∀ e, (net.thread host e).conn.chokedNode = false
  chan : ∀ e, ∀ m ∈ net.chan e, m.type ≠ .Choke ∧ m.type ≠ .UnChoke
  role : ∀ e, (net.thread host e).phase ≠ .start → (net.thread host e).conn.client = e.acceptor
  clock : ∀ e, (net.thread host e).phase ≠ .closed → (net.thread host e).conn.ntimeouts < 5

theorem Played.mem_taken (h : Played host net a out net' e ev r) {m : PktMsg} (hm : m ∈ ev.taken) :
    m ∈ net.chan e.peer := by
  have hrec := h.chan.received
  simp only at hrec
  rw [hrec]
  exact List.mem_append_left _ hm

theorem Played.reply (h : Played host net a out net' e ev r) (hc : Calm host net) :
    Reply ((net.nodes (host e)).session e) (net.thread host e).phase ev out r.1 r.2 := by
  have hfree : ((net.nodes (host e)).session e).Free := ⟨hc.believed e,hc.copies e,hc.nbrs (host e)⟩
  obtain ⟨new,hout,hreply⟩ := hfree.event (fun pkt junk hev => hc.chan e.peer pkt
    (h.mem_taken (by rw [hev]; exact List.mem_singleton_self pkt))) h.event
  rw [h.output,hout]
  exact hreply

theorem Played.calm (h : Played host net a out net' e ev r) (hc : Calm host net) : Calm host net' := by
  have hreply := h.reply hc
  have hother : ∀ {P : End → Thread → Prop}, (∀ d, P d (net.thread host d)) → P e ⟨r.1.conn,r.2⟩ →
      ∀ d, P d (net'.thread host d) := by
    intro P hall hself d
    by_cases hd : d = e
    · rw [hd,h.self]
      exact hself
    · rw [h.other hd]
      exact hall d
  refine ⟨fun i => ?_,?_,?_,fun d m hm => ?_,?_,?_⟩
  · by_cases hi : i = host e
    · subst hi
      rw [h.nodes,Function.update_self]
      exact Session.event_unchoked h.event (hc.nbrs (host e))
    · rw [h.away hi]
      exact hc.nbrs i
  · exact hother (P := fun _ t => t.conn.chokedPeer = false) hc.copies (h.moved.chokedPeer (hc.copies e))
  · refine hother (P := fun _ t => t.conn.chokedNode = false) hc.believed ?_
    rcases hreply.frame with ⟨self,peer,_,_,hconn⟩ | ⟨_,_,hnode,_⟩
    · exact congrArg Conn.chokedNode hconn
    · exact hnode.trans (hc.believed e)
  · have hold : m ∈ net.chan d ∨ m ∈ out := by
      by_cases hd : d = e
      · rw [hd,h.chan.appended] at hm
        exact hd ▸ List.mem_append.mp hm
      · by_cases hback : d = e.peer
        · have hrec := h.chan.received
          rw [hback] at hm ⊢
          simp only at hrec
          rw [hrec]
          exact Or.inl (List.mem_append_right _ hm)
        · rw [h.chan.frame d hd hback] at hm
          exact Or.inl hm
    rcases hold with hm | hm
    · exact hc.chan d m hm
    · exact hreply.unchoked hm
  · refine hother (P := fun d t => t.phase ≠ .start → t.conn.client = d.acceptor) hc.role fun _ => ?_
    rcases hreply.frame with ⟨self,peer,_,hev,hconn⟩ | ⟨hph,hclient,_,_⟩
    · exact (congrArg Conn.client hconn).trans (h.role self peer hev)
    · exact hclient.trans (hc.role e hph)
  · refine hother (P := fun _ t => t.phase ≠ .closed → t.conn.ntimeouts < 5) hc.clock fun hopen => ?_
    rcases hreply.frame with ⟨self,peer,_,_,hconn⟩ | ⟨_,_,_,hclock⟩
    · rw [hconn]
      exact Nat.zero_lt_succ 4
    · have hwas : (net.thread host e).phase ≠ .closed := by
        intro hclosed
        rw [hclosed] at hreply
        cases hreply
      exact hclock hwas (hc.clock e hwas) hopen

/-! ## What a step does to the weights -/

theorem both_ends (f : End → ℕ) (e : End) : f ⟨e.link,true⟩ + f ⟨e.link,false⟩ = f e + f e.peer := by
  obtain ⟨l,b⟩ := e
  cases b with
  | true => rfl
  | false => exact Nat.add_comm _ _

theorem Played.life_both (h : Played host net a out net' e ev r) :
    net'.life host ⟨e.link,true⟩ + net'.life host ⟨e.link,false⟩ + (net.thread host e).life =
      net.life host ⟨e.link,true⟩ + net.life host ⟨e.link,false⟩ + Thread.life ⟨r.1.conn,r.2⟩ := by
  rw [both_ends,both_ends]
  simp only [life,h.self,h.other e.peer_ne]
  omega

/-- The queues, for a weight of the receiver and one of its peer. -/
theorem Played.weigh_both (h : Played host net a out net' e ev r) (w w' : MessageType → ℕ) :
    weigh w (net'.chan e.peer) + weigh w' (net'.chan e) + weigh w ev.taken =
      weigh w (net.chan e.peer) + weigh w' (net.chan e) + weigh w' out := by
  have hrec := h.chan.received
  have happ := h.chan.appended
  simp only at hrec happ
  rw [hrec,happ,weigh_append,weigh_append]
  omega

theorem Played.hellos_both (h : Played host net a out net' e ev r) :
    net'.hellos host ⟨e.link,true⟩ + net'.hellos host ⟨e.link,false⟩ +
        (weigh (helloWeight e.acceptor) ev.taken + (net.thread host e).toCompare) =
      net.hellos host ⟨e.link,true⟩ + net.hellos host ⟨e.link,false⟩ +
        (weigh (helloWeight !e.acceptor) out + Thread.toCompare ⟨r.1.conn,r.2⟩) := by
  have hqueues := h.weigh_both (helloWeight e.acceptor) (helloWeight !e.acceptor)
  rw [both_ends,both_ends]
  simp only [hellos,End.peer_peer,show e.peer.acceptor = !e.acceptor from rfl,h.self,h.other e.peer_ne]
  omega

theorem Played.news_both (h : Played host net a out net' e ev r) :
    net'.news host ⟨e.link,true⟩ + net'.news host ⟨e.link,false⟩ +
        (weigh haveWeight ev.taken + (net.thread host e).toMark) =
      net.news host ⟨e.link,true⟩ + net.news host ⟨e.link,false⟩ +
        (weigh haveWeight out + Thread.toMark ⟨r.1.conn,r.2⟩) := by
  have hqueues := h.weigh_both haveWeight haveWeight
  rw [both_ends,both_ends]
  simp only [news,End.peer_peer,h.self,h.other e.peer_ne]
  omega

theorem Played.notes_both (h : Played host net a out net' e ev r) :
    net'.notes ⟨e.link,true⟩ + net'.notes ⟨e.link,false⟩ + weigh noteWeight ev.taken =
      net.notes ⟨e.link,true⟩ + net.notes ⟨e.link,false⟩ + weigh noteWeight out := by
  have hqueues := h.weigh_both noteWeight noteWeight
  rw [both_ends,both_ends]
  simp only [notes,End.peer_peer]
  omega

/-- The exchange on the link of a step: the other end has only lost what was taken. -/
theorem Played.exchange_both (h : Played host net a out net' e ev r) :
    (net.exchange host e.link (!e.acceptor)).sent =
        ev.taken.filterMap PktMsg.message ++ (net'.exchange host e.link (!e.acceptor)).sent ∧
      (net'.exchange host e.link (!e.acceptor)).wants = (net.exchange host e.link (!e.acceptor)).wants ∧
      net'.exchange host e.link e.acceptor = ⟨r.1.conn.reqs.keys.toFinset,
        (net.exchange host e.link e.acceptor).sent ++ out.filterMap PktMsg.message⟩ := by
  have hrec := h.chan.received
  have happ := h.chan.appended
  have hback : (⟨e.link,!e.acceptor⟩ : End) = e.peer := rfl
  have hself : (⟨e.link,e.acceptor⟩ : End) = e := rfl
  simp only at hrec happ
  simp only [exchange,hback,hself,h.self,h.other e.peer_ne,hrec,happ,List.filterMap_append,and_self]

/-- A step that takes and sends no message leaves the exchange but for what its end wants. -/
theorem Played.exchange_silent (h : Played host net a out net' e ev r)
    (ht : ev.taken.filterMap PktMsg.message = []) : net'.exchange host e.link (!e.acceptor) =
      net.exchange host e.link (!e.acceptor) := by
  obtain ⟨hsent,hwants,_⟩ := h.exchange_both
  rw [ht,List.nil_append] at hsent
  cases hnew : net'.exchange host e.link (!e.acceptor)
  cases hold : net.exchange host e.link (!e.acceptor)
  simp_all

/-- The links apart from that of a step. -/
theorem Played.away_link (h : Played host net a out net' e ev r) {d : End} (hd : d.link ≠ e.link) :
    net'.thread host d = net.thread host d ∧ net'.chan d = net.chan d := by
  have hne : d ≠ e := fun heq => hd (congrArg End.link heq)
  have hne' : d ≠ e.peer := by
    rintro rfl
    exact hd rfl
  exact ⟨h.other hne,h.chan.frame d hne hne'⟩

theorem Played.rank_away (h : Played host net a out net' e ev r) {l : ℕ} (hl : l ≠ e.link) :
    net'.rank host l = net.rank host l := by
  have hend : ∀ b, net'.thread host ⟨l,b⟩ = net.thread host ⟨l,b⟩ ∧ net'.chan ⟨l,b⟩ = net.chan ⟨l,b⟩ :=
    fun b => h.away_link hl
  have hexch : net'.exchange host l = net.exchange host l := by
    funext b
    simp only [exchange,hend b]
  simp only [rank,life,hellos,news,notes,hexch,End.peer,hend]

/-- One of the numbers is lowered, and those before it stay. -/
theorem Played.rank_lt (h : Played host net a out net' e ev r)
    (hlow : Thread.life ⟨r.1.conn,r.2⟩ < (net.thread host e).life ∨
      Thread.life ⟨r.1.conn,r.2⟩ = (net.thread host e).life ∧
        (weigh (helloWeight !e.acceptor) out + Thread.toCompare ⟨r.1.conn,r.2⟩ <
            weigh (helloWeight e.acceptor) ev.taken + (net.thread host e).toCompare ∨
          weigh (helloWeight !e.acceptor) out + Thread.toCompare ⟨r.1.conn,r.2⟩ =
            weigh (helloWeight e.acceptor) ev.taken + (net.thread host e).toCompare ∧
          (weigh haveWeight out + Thread.toMark ⟨r.1.conn,r.2⟩ <
              weigh haveWeight ev.taken + (net.thread host e).toMark ∨
            weigh haveWeight out + Thread.toMark ⟨r.1.conn,r.2⟩ =
              weigh haveWeight ev.taken + (net.thread host e).toMark ∧
            Exchange.total (net'.exchange host e.link) + weigh noteWeight out <
              Exchange.total (net.exchange host e.link) + weigh noteWeight ev.taken))) :
    net'.rank host e.link < net.rank host e.link := by
  have hlife := h.life_both
  have hhellos := h.hellos_both
  have hnews := h.news_both
  have hnotes := h.notes_both
  simp only [rank,Prod.Lex.toLex_lt_toLex]
  omega

theorem message_requests (reqs : Reqs) :
    (reqs.keys.map requestPkt).filterMap PktMsg.message = reqs.keys.map .ask := by
  rw [List.filterMap_map]
  exact congrFun List.filterMap_eq_map _

/-- A message that is taken is a step of the exchange. -/
theorem Played.exchange_step {pkt : PktMsg} {junk : Bytes} (h : Played host net a out net' e (.packet pkt junk) r)
    (hc : Calm host net) (ht : pkt.type = .Request ∨ pkt.type = .Piece) :
    Exchange.Step (net.exchange host e.link) e.acceptor (net'.exchange host e.link) := by
  obtain ⟨hsent,hwants,hself⟩ := h.exchange_both
  have hreply := h.reply hc
  have hother : net'.exchange host e.link (!e.acceptor) = ⟨(net.exchange host e.link (!e.acceptor)).wants,
      (net'.exchange host e.link (!e.acceptor)).sent⟩ := by
    rw [← hwants]
  rcases ht with ht | ht
  · obtain ⟨hconn,payload,rfl⟩ := hreply.request ht
    have hmsg : (Event.packet pkt junk).taken.filterMap PktMsg.message = [.ask pkt.req.pcno] := by
      simp [Event.taken,PktMsg.message,ht]
    rw [hmsg] at hsent
    refine .ask pkt.req.pcno _ (net.thread host e).conn.reqs.keys hsent hother (AList.keys_nodup _) rfl ?_
    rw [hself,hconn,List.filterMap_cons,message_requests]
    rfl
  · obtain ⟨hconn,rfl⟩ := hreply.piece ht
    have hmsg : (Event.packet pkt junk).taken.filterMap PktMsg.message = [.answer pkt.piece.pcno] := by
      simp [Event.taken,PktMsg.message,ht]
    rw [hmsg] at hsent
    refine .answer pkt.piece.pcno _ hsent hother ?_
    rw [hself,hconn,List.filterMap_nil,List.append_nil]
    exact congrArg (fun wants => (⟨wants,_⟩ : Exchange.Side UInt32)) (Pair.keys_erase _ _)

/-- A step that has nothing to do with the exchange. -/
theorem Played.exchange_same (h : Played host net a out net' e ev r) (ht : ev.taken.filterMap PktMsg.message = [])
    (ho : out.filterMap PktMsg.message = []) (hr : r.1.conn.reqs = (net.thread host e).conn.reqs) :
    net'.exchange host e.link = net.exchange host e.link := by
  have hself := h.exchange_both.2.2
  rw [ho,List.append_nil,hr] at hself
  funext b
  by_cases hb : b = e.acceptor
  · rw [hb,hself]
    rfl
  · rw [Bool.eq_not.mpr hb]
    exact h.exchange_silent ht

theorem Played.rank_lowers (h : Played host net a out net' e ev r) (hc : Calm host net) :
    net'.rank host e.link < net.rank host e.link := by
  obtain ⟨s',ph'⟩ := r
  apply h.rank_lt
  have hreply : Reply ((net.nodes (host e)).session e) (net.thread host e).phase ev out s' ph' := h.reply hc
  have hclient : (net.thread host e).phase ≠ .start → ((net.nodes (host e)).session e).conn.client = e.acceptor :=
    hc.role e
  have hclock : (net.thread host e).phase ≠ .closed → ((net.nodes (host e)).session e).conn.ntimeouts < 5 :=
    hc.clock e
  have hthread : (net.thread host e).conn = ((net.nodes (host e)).session e).conn := rfl
  generalize hph : (net.thread host e).phase = ph at hreply hclient hclock
  simp only [Thread.life,Thread.toCompare,Thread.toMark,hph,hthread]
  cases hreply with
  | made hconn =>
    refine Or.inl ?_
    simp only [hconn,Conn.new]
    omega
  | expired _ hconn halive =>
    have hlt := hclock (by simp)
    refine Or.inl ?_
    rcases halive with ⟨rfl,_⟩ | rfl
    · simp only [hconn]
      omega
    · simp only
      omega
  | hungUp hconn =>
    have hlt := hclock (by simp)
    refine Or.inl ?_
    simp only
    omega
  | @greeted pkt junk _ _ ht hs _ hsame hcount | @received pkt junk _ _ ht hs _ hsame hcount =>
    have hcl := hclient (by simp)
    refine Or.inr ⟨by simp only [hs.ntimeouts],Or.inl ?_⟩
    rw [weigh_of_type hsame,hcount,hcl]
    cases e.acceptor <;> simp [Event.taken,ht,helloWeight]
  | @noted pkt junk _ ht hconn =>
    have hmsg : (Event.packet pkt junk).taken.filterMap PktMsg.message = [] := by
      rcases ht with ht | ht <;> simp [Event.taken,PktMsg.message,ht]
    have hsame := h.exchange_same hmsg rfl (congrArg Conn.reqs hconn)
    refine Or.inr ⟨by simp only [hconn],Or.inr ?_⟩
    rw [hsame]
    rcases ht with ht | ht <;> simp [Event.taken,ht,helloWeight,haveWeight,noteWeight]
  | @had pkt junk _ ht hnew _ hconn =>
    refine Or.inr ⟨by simp only [hconn],Or.inr ⟨?_,Or.inl ?_⟩⟩
    · rcases hnew with rfl | rfl <;> simp [Event.taken,ht,helloWeight,requestPkt]
    · rcases hnew with rfl | rfl <;> simp [Event.taken,ht,haveWeight,requestPkt]
  | @asked pkt junk payload _ ht hconn =>
    have hlt := (h.exchange_step hc (Or.inl ht)).total_lt
    refine Or.inr ⟨by simp only [hconn],Or.inr ?_⟩
    rw [weigh_cons,weigh_cons,weigh_cons,weigh_requests rfl,weigh_requests rfl,weigh_requests rfl]
    simpa [Event.taken,ht,helloWeight,haveWeight,noteWeight] using hlt
  | @stored pkt junk _ ht hconn =>
    have hlt := (h.exchange_step hc (Or.inr ht)).total_lt
    refine Or.inr ⟨by simp only [hconn],Or.inr ?_⟩
    simpa [Event.taken,ht,helloWeight,haveWeight,noteWeight] using hlt
  | compared hs =>
    refine Or.inr ⟨by simp only [hs.ntimeouts],Or.inl ?_⟩
    simp [Event.taken]
  | marked hs =>
    refine Or.inr ⟨by simp only [hs.ntimeouts],Or.inr ⟨by simp [Event.taken],Or.inl ?_⟩⟩
    simp [Event.taken]
  | declined hconn =>
    refine Or.inr ⟨by simp only [hconn],Or.inr ⟨by simp [Event.taken,helloWeight],Or.inl ?_⟩⟩
    simp [Event.taken,haveWeight]
  | @answered s' hs =>
    have hasks : ∀ w : MessageType → ℕ, w .Request = 0 → weigh w
        (if ((net.nodes (host e)).session e).conn.client then [] else s'.conn.reqs.keys.map requestPkt) = 0 := by
      intro w hw
      split
      · rfl
      · exact weigh_requests hw _
    refine Or.inr ⟨by simp only [hs.ntimeouts],Or.inr ⟨?_,Or.inl ?_⟩⟩
    · rw [weigh_cons,hasks _ rfl]
      simp [Event.taken,helloWeight]
    · rw [weigh_cons,hasks _ rfl]
      simp [Event.taken,haveWeight]

/-! ## The traffic ends -/

/-- A step of a thread at an end of some links. -/
def Within (links : Finset ℕ) : NetAct → Prop
  | .event e _ | .deliver e _ => e.link ∈ links
  | .choke _ _ _ => False

/-- The steps of the threads at some links. -/
def Among (host : End → ℕ) (links : Finset ℕ) (net : Network) (l : NetAct × List PktMsg) (net' : Network) : Prop :=
  ExecStep (Network.exec host) net l net' ∧ Within links l.1

theorem calm_init (hthreads : ∀ e, net.thread host e = Thread.new) (hchan : ∀ e, net.chan e = [])
    (hnbrs : ∀ i, (net.nodes i).nmap.nbrs = []) : Calm host net := by
  refine ⟨fun i nbr hnbr => ?_,fun e => ?_,fun e => ?_,fun e m hm => ?_,fun e he => ?_,fun e _ => ?_⟩
  · rw [hnbrs i] at hnbr
    exact absurd hnbr List.not_mem_nil
  · rw [hthreads e]
    rfl
  · rw [hthreads e]
    rfl
  · rw [hchan e] at hm
    exact absurd hm List.not_mem_nil
  · exact absurd (by rw [hthreads e]; rfl) he
  · rw [hthreads e]
    exact Nat.zero_lt_succ 4

theorem Played.within (h : Played host net a out net' e ev r) {links : Finset ℕ} (hw : Within links a) :
    e.link ∈ links := by
  rcases h.act with rfl | ⟨pkt,junk,rfl,rfl⟩
  · exact hw
  · exact hw

theorem Among.played {links : Finset ℕ} {l : NetAct × List PktMsg} (h : Among host links net l net') :
    ∃ e ev r, Played host net l.1 l.2 net' e ev r ∧ e.link ∈ links := by
  obtain ⟨a,out⟩ := l
  rcases exec_played h.1 with ⟨i,k,choked,rfl,_⟩ | ⟨e,ev,r,hp⟩
  · exact absurd h.2 id
  · exact ⟨e,ev,r,hp,hp.within h.2⟩

/-- However the threads at finitely many links are scheduled, and whatever their timeouts and the packets
they send each other: all of it ends after finitely many steps. -/
theorem traffic_ends {net₀ : Network} (hthreads : ∀ e, net₀.thread host e = Thread.new)
    (hchan : ∀ e, net₀.chan e = []) (hnbrs : ∀ i, (net₀.nodes i).nmap.nbrs = []) (links : Finset ℕ) :
    ¬ Endless (Among host links) net₀ := by
  refine not_endless (Φ := fun net => ∑ l ∈ links, net.rank host l) (P := Calm host)
    (calm_init hthreads hchan hnbrs) (fun net l net' hc hs => ?_) fun net l net' hc hs => ?_
  · obtain ⟨e,ev,r,hp,_⟩ := hs.played
    exact hp.calm hc
  · obtain ⟨e,ev,r,hp,hmem⟩ := hs.played
    refine Finset.sum_lt_sum (fun i _ => ?_) ⟨e.link,hmem,hp.rank_lowers hc⟩
    by_cases hi : i = e.link
    · exact hi ▸ (hp.rank_lowers hc).le
    · exact (hp.rank_away hi).le

/-- The two nodes on their link. -/
theorem traffic_ends_two : ¬ Endless (Among hostOfTwo {0}) two :=
  traffic_ends (fun _ => rfl) (fun _ => rfl) (fun _ => rfl) {0}

/-! ## What is wanted has been asked for -/

/-- What an end wants is asked for or on its way. -/
def Asked (host : End → ℕ) (net : Network) (e : End) : Prop :=
  Exchange.Covered (net.exchange host e.link) e.acceptor

theorem message_eq_ask {m : PktMsg} {q : UInt32} : m.message = some (.ask q) ↔ m.requestNo = some q := by
  unfold PktMsg.message PktMsg.requestNo
  cases hty : m.type <;> simp

theorem message_eq_answer {m : PktMsg} {q : UInt32} : m.message = some (.answer q) ↔ m.pieceNo = some q := by
  unfold PktMsg.message PktMsg.pieceNo
  cases hty : m.type <;> simp

theorem asked_iff : Asked host net e ↔ ∀ q ∈ (net.thread host e).conn.reqs,
    q ∈ (net.chan e).filterMap PktMsg.requestNo ∨ q ∈ (net.chan e.peer).filterMap PktMsg.pieceNo := by
  refine forall_congr' fun q => imp_congr ?_ (or_congr ?_ ?_)
  · rw [AList.mem_keys]
    exact List.mem_toFinset
  · simp only [exchange,List.mem_filterMap,message_eq_ask]
  · simp only [exchange,List.mem_filterMap,message_eq_answer]
    rfl

/-- The step at the other end of a link. -/
theorem Played.asked_peer (h : Played host net a out net' e ev r) (hc : Calm host net)
    (hd : Asked host net e.peer) : Asked host net' e.peer := by
  have hsend := h.exchange_both.2.2
  by_cases hstep : ∃ pkt junk, ev = .packet pkt junk ∧ (pkt.type = .Request ∨ pkt.type = .Piece)
  · obtain ⟨pkt,junk,rfl,ht⟩ := hstep
    exact (h.exchange_step hc ht).covered_other hd
  · have hmsg : ev.taken.filterMap PktMsg.message = [] := by
      cases ev with
      | packet pkt junk =>
        simp only [not_exists,not_and,not_or] at hstep
        obtain ⟨hr,hp⟩ := hstep pkt junk rfl
        cases hty : pkt.type <;> simp_all [Event.taken,PktMsg.message]
      | _ => rfl
    exact Exchange.Covered.other_of_append (h.exchange_silent hmsg) (congrArg Exchange.Side.sent hsend) hd

theorem request_mem {reqs : Reqs} {q : UInt32} (hq : q ∈ reqs) : requestPkt q ∈ reqs.keys.map requestPkt :=
  List.mem_map_of_mem (AList.mem_keys.mp hq)

theorem Played.asked_all (h : Played host net a out net' e ev r)
    (hall : ∀ q ∈ r.1.conn.reqs, requestPkt q ∈ out) : Asked host net' e := by
  have hsend := h.exchange_both.2.2
  refine Exchange.covered_of_asks (congrArg Exchange.Side.sent hsend) fun q hq => ?_
  rw [hsend,List.mem_toFinset,← AList.mem_keys] at hq
  exact List.mem_filterMap.mpr ⟨requestPkt q,hall q hq,rfl⟩

/-- A step of the end itself. Only an accepting end does not ask as soon as its earmarks are set. -/
theorem Played.asked_self (h : Played host net a out net' e ev r) (hc : Calm host net) (hd : Asked host net e)
    (hev : ev ≠ .resume ∨ e.acceptor = false) : Asked host net' e := by
  have hreply := h.reply hc
  have hrole := hc.role e
  have hkeep : ev.taken.filterMap PktMsg.message = [] → r.1.conn.reqs = (net.thread host e).conn.reqs →
      Asked host net' e := by
    intro hmsg hreqs
    have hsend := h.exchange_both.2.2
    refine Exchange.Covered.of_append (h.exchange_silent hmsg) (congrArg Exchange.Side.sent hsend) ?_ hd
    rw [hsend,hreqs]
    exact Finset.Subset.refl _
  obtain ⟨s',ph'⟩ := r
  have hthread : (net.thread host e).conn = ((net.nodes (host e)).session e).conn := rfl
  generalize hph : (net.thread host e).phase = ph at hreply hrole
  cases hreply with
  | made hconn =>
    refine h.asked_all fun q hq => ?_
    rw [hconn] at hq
    exact absurd hq (AList.notMem_empty q)
  | expired _ hconn _ =>
    refine h.asked_all fun q hq => List.mem_append_left _ ?_
    rw [hconn] at hq
    exact request_mem hq
  | hungUp hconn | declined hconn => exact hkeep rfl (congrArg Conn.reqs hconn)
  | greeted ht _ hreqs | received ht _ hreqs => exact hkeep (by simp [Event.taken,PktMsg.message,ht]) hreqs
  | noted ht hconn =>
    refine hkeep ?_ (congrArg Conn.reqs hconn)
    rcases ht with ht | ht <;> simp [Event.taken,PktMsg.message,ht]
  | had ht _ hconn => exact hkeep (by simp [Event.taken,PktMsg.message,ht]) (congrArg Conn.reqs hconn)
  | asked ht => exact (h.exchange_step hc (Or.inl ht)).covered_self hd
  | stored ht => exact (h.exchange_step hc (Or.inr ht)).covered_self hd
  | compared _ hreqs | marked _ hreqs => exact hkeep rfl hreqs
  | answered =>
    have hacc := hev.resolve_left fun hne => hne rfl
    have hclient : ((net.nodes (host e)).session e).conn.client = false := (hrole (by simp)).trans hacc
    refine h.asked_all fun q hq => List.mem_cons_of_mem _ ?_
    rw [hclient]
    exact request_mem hq

/-- A timeout or the answer to a Request asks for everything. -/
theorem Played.asked_again (h : Played host net a out net' e ev r) (hc : Calm host net)
    (hev : ev = .timeout ∨ ∃ pkt junk, ev = .packet pkt junk ∧ pkt.type = .Request) : Asked host net' e := by
  have hreply := h.reply hc
  refine h.asked_all fun q hq => ?_
  obtain ⟨s',ph'⟩ := r
  rcases hev with rfl | ⟨pkt,junk,rfl,ht⟩
  · generalize (net.thread host e).phase = ph at hreply
    cases hreply with
    | expired _ hconn _ =>
      rw [hconn] at hq
      exact List.mem_append_left _ (request_mem hq)
  · obtain ⟨hconn,payload,rfl⟩ := hreply.request ht
    rw [hconn] at hq
    exact List.mem_cons_of_mem _ (request_mem hq)

/-- A step in which an end sends all its requests. -/
def Repeats (e : End) (x : Network × NetAct × List PktMsg) : Prop :=
  x.2.1 = .event e .timeout ∨
    ∃ junk pkt rest, x.2.1 = .deliver e junk ∧ x.1.chan e.peer = pkt :: rest ∧ pkt.type = .Request

theorem Played.repeats (h : Played host net a out net' e ev r) {d : End} (hx : Repeats d (net,a,out)) :
    e = d ∧ (ev = .timeout ∨ ∃ pkt junk, ev = .packet pkt junk ∧ pkt.type = .Request) := by
  rcases hx with ha | ⟨junk,pkt,rest,ha,hchan,ht⟩
  · rcases h.act with hact | ⟨_,_,hact,_⟩
    · obtain ⟨rfl,rfl⟩ := NetAct.event.inj (hact.symm.trans ha)
      exact ⟨rfl,Or.inl rfl⟩
    · cases hact.symm.trans ha
  · rcases h.act with hact | ⟨pkt',junk',hact,rfl⟩
    · cases hact.symm.trans ha
    · obtain ⟨rfl,rfl⟩ := NetAct.deliver.inj (hact.symm.trans ha)
      obtain ⟨rfl,_⟩ := List.cons.inj (h.chan.received.symm.trans hchan)
      exact ⟨rfl,Or.inr ⟨pkt',junk',rfl,ht⟩⟩

/-- The runs in which no one is choked. -/
theorem calm_run {net₀ : Network} (hthreads : ∀ e, net₀.thread host e = Thread.new) (hchan : ∀ e, net₀.chan e = [])
    (hnbrs : ∀ i, (net₀.nodes i).nmap.nbrs = []) {hist : List (Network × NetAct × List PktMsg)}
    (run : Run (ExecStep (Network.exec host)) net₀ hist net)
    (hfree : ∀ x ∈ hist, ∀ i k choked, x.2.1 ≠ .choke i k choked) : Calm host net := by
  induction run with
  | refl => exact calm_init hthreads hchan hnbrs
  | @tail hist net net' l run last ih =>
    obtain ⟨hl,hhist⟩ := List.forall_mem_cons.mp hfree
    obtain ⟨a,out⟩ := l
    rcases exec_played last with ⟨i,k,choked,rfl,_⟩ | ⟨e,ev,r,hp⟩
    · exact absurd rfl (hl i k choked)
    · exact hp.calm (ih hhist)

theorem Played.asked (h : Played host net a out net' e ev r) (hc : Calm host net) {d : End}
    (hd : Asked host net d) (hev : a ≠ .event d .resume ∨ d.acceptor = false) : Asked host net' d := by
  by_cases hde : d = e
  · subst hde
    refine h.asked_self hc hd (hev.imp_left fun hne heq => ?_)
    rcases h.act with rfl | ⟨pkt,junk,_,hpkt⟩
    · exact hne (by rw [heq])
    · cases heq.symm.trans hpkt
  · by_cases hback : d = e.peer
    · subst hback
      exact h.asked_peer hc hd
    · have hl : d.link ≠ e.link := by
        intro hl
        obtain ⟨l,b⟩ := d
        obtain ⟨l',b'⟩ := e
        obtain rfl : l = l' := hl
        cases b <;> cases b' <;> simp [End.peer] at hde hback
      have hends : ∀ b, net'.thread host ⟨d.link,b⟩ = net.thread host ⟨d.link,b⟩ ∧
          net'.chan ⟨d.link,b⟩ = net.chan ⟨d.link,b⟩ := fun b => h.away_link hl
      have hsame : net'.exchange host d.link = net.exchange host d.link := by
        funext b
        simp only [exchange,hends b]
      rw [Asked,hsame]
      exact hd

/-- A connecting end is never left waiting for a piece it has not asked for, and an accepting end
is not from the first time on that it repeats its requests after its earmarks. -/
theorem wants_asked {net₀ : Network} (hthreads : ∀ e, net₀.thread host e = Thread.new)
    (hchan : ∀ e, net₀.chan e = []) (hnbrs : ∀ i, (net₀.nodes i).nmap.nbrs = [])
    {hist : List (Network × NetAct × List PktMsg)} (run : Run (ExecStep (Network.exec host)) net₀ hist net)
    (hfree : ∀ x ∈ hist, ∀ i k choked, x.2.1 ≠ .choke i k choked)
    (hasks : e.acceptor = false ∨ ∃ later x earlier, hist = later ++ x :: earlier ∧ Repeats e x ∧
      ∀ y ∈ later, y.2.1 ≠ .event e .resume) :
    ∀ q ∈ (net.thread host e).conn.reqs,
      q ∈ (net.chan e).filterMap PktMsg.requestNo ∨ q ∈ (net.chan e.peer).filterMap PktMsg.pieceNo := by
  rw [← asked_iff]
  induction run with
  | refl =>
    rw [asked_iff,hthreads e]
    exact fun q hq => absurd hq (AList.notMem_empty q)
  | @tail hist net net' l run last ih =>
    obtain ⟨hl,hhist⟩ := List.forall_mem_cons.mp hfree
    have hcalm := calm_run hthreads hchan hnbrs run hhist
    obtain ⟨a,out⟩ := l
    rcases exec_played last with ⟨i,k,choked,rfl,_⟩ | ⟨d,ev,r,hp⟩
    · exact absurd rfl (hl i k choked)
    rcases hasks with hacc | ⟨later,x,earlier,heq,hx,hlater⟩
    · exact hp.asked hcalm (ih hhist (Or.inl hacc)) (Or.inr hacc)
    · cases later with
      | nil =>
        obtain ⟨rfl,rfl⟩ := List.cons.inj heq
        obtain ⟨rfl,hev⟩ := hp.repeats hx
        exact hp.asked_again hcalm hev
      | cons y later =>
        obtain ⟨rfl,rfl⟩ := List.cons.inj heq
        obtain ⟨hy,hlater⟩ := List.forall_mem_cons.mp hlater
        exact hp.asked hcalm (ih hhist (Or.inr ⟨later,x,earlier,rfl,hx,hlater⟩)) (Or.inl hy)

/-- The connecting end wants the only piece, and its Request is on the way. -/
theorem wants_asked_one : ∃ hist net, Run (ExecStep (Network.exec hostOfTwo)) two hist net ∧
    (net.thread hostOfTwo ⟨0,false⟩).conn.reqs.keys = [0] ∧ (net.chan ⟨0,true⟩).filterMap PktMsg.pieceNo = [] ∧
    ∀ q ∈ (net.thread hostOfTwo ⟨0,false⟩).conn.reqs, q ∈ (net.chan ⟨0,false⟩).filterMap PktMsg.requestNo ∨
      q ∈ (net.chan (End.peer ⟨0,false⟩)).filterMap PktMsg.pieceNo := by
  obtain ⟨hist,net,run,h⟩ := @exists_run _ _ _ _ (Network.exec hostOfTwo) two opening
    (fun hist net => (net.thread hostOfTwo ⟨0,false⟩).conn.reqs.keys == [0] &&
      (net.chan ⟨0,true⟩).filterMap PktMsg.pieceNo == [] &&
      hist.all fun x => match x.2.1 with
        | .choke _ _ _ => false
        | _ => true)
    (by decide +kernel)
  rw [Bool.and_eq_true,Bool.and_eq_true,beq_iff_eq,beq_iff_eq,List.all_eq_true] at h
  refine ⟨hist,net,run,h.1.1,h.1.2,wants_asked (fun _ => rfl) (fun _ => rfl) (fun _ => rfl) run
    (fun x hx i k choked heq => ?_) (Or.inl rfl)⟩
  have hno := h.2 x hx
  rw [heq] at hno
  cases hno

end Network
end BTRx
