import BTRx.Base.Fifo
import BTRx.Node.Output

/-! # Nodes joined by connections

A link joins the end that connected to the end that accepted. Each end has a thread on
its node and a queue of the packets it has sent that have not been received, oldest
first; a thread receives from the queue of the other end.
-/
namespace BTRx
open ByteSet Memory LittleEndian Transition
open Session

structure End where
  link : ℕ
  acceptor : Bool
  deriving DecidableEq

def End.peer (e : End) : End := ⟨e.link,!e.acceptor⟩

@[simp] theorem End.peer_peer (e : End) : e.peer.peer = e := by simp [End.peer]

@[simp] theorem End.peer_ne (e : End) : e.peer ≠ e := by
  intro h
  have hb := congrArg End.acceptor h
  simp [End.peer] at hb

structure Network where
  nodes : ℕ → Node End
  chan : End → List PktMsg

inductive NetAct
  | event (e : End) (ev : Event)
  | deliver (e : End) (junk : Bytes)
  | choke (i k : ℕ) (choked : Bool)

/-- Events that come from the node itself; a thread is started with the role of its end. -/
def Event.Local (e : End) : Event → Bool
  | .makeThread _ peeridPeer => decide (peeridPeer = 0) == e.acceptor
  | .packet _ _ => false
  | _ => true

namespace Network
variable (host : End → ℕ)

def thread (net : Network) (e : End) : Thread := (net.nodes (host e)).threads e

/-- The pieces held by the node of an end. -/
def Held (net : Network) (e : End) (p : ℕ) : Prop :=
  bitAt (net.nodes (host e)).ost.bfield.bfield p = true

/-- A step of the thread at `e`, after which `rest` is left of what its peer sent. -/
def stepAt (net : Network) (e : End) (ev : Event) (rest : List PktMsg) :
    Except Refusal (List PktMsg × Network) := do
  let (out,n) ← (net.nodes (host e)).exec (.thread e ev)
  return (out,{
    nodes := Function.update net.nodes (host e) n
    chan := Function.update (Function.update net.chan e.peer rest) e (net.chan e ++ out) })

def exec (net : Network) : NetAct → Except Refusal (List PktMsg × Network)
  | .event e ev => if ev.Local e then net.stepAt host e ev (net.chan e.peer) else .error .disabled
  | .deliver e junk =>
    match net.chan e.peer with
    | [] => .error .disabled
    | pkt :: rest => net.stepAt host e (.packet pkt junk) rest
  | .choke i k choked =>
    .ok ([],{ net with nodes := Function.update net.nodes i ((net.nodes i).leaveChoked k choked) })

/-- Nodes of one configuration before their first connection; what each of them holds is
arbitrary. -/
structure Initial (fsz pcsz : ℕ) (net : Network) : Prop where
  fsz_pos : 0 < fsz
  pcsz_pos : 0 < pcsz
  fresh : ∀ i, (net.nodes i).Fresh
  npcs : ∀ i, (net.nodes i).ost.npcs = npcsOf fsz pcsz
  chan : ∀ e, net.chan e = []

variable {host} {net net' : Network} {a : NetAct} {e : End} {ev : Event} {r : Session × Phase}
  {out : List PktMsg}

/-- A step as a turn of an end. -/
def turn : Network × NetAct × List PktMsg → Option (Fifo.Turn End PktMsg)
  | (_,.event e _,out) => some ⟨e,[],out⟩
  | (net,.deliver e _,out) => some ⟨e,(net.chan e.peer).take 1,out⟩
  | (_,.choke _ _ _,_) => none

/-- The step of a thread with its turn. -/
structure Played (host : End → ℕ) (net : Network) (a : NetAct) (out : List PktMsg) (net' : Network)
    (e : End) (ev : Event) (r : Session × Phase) : Prop where
  event : ((net.nodes (host e)).session e).event (net.thread host e).phase ev = .ok r
  output : out = r.1.out
  act : a = .event e ev ∨ ∃ pkt junk, a = .deliver e junk ∧ ev = .packet pkt junk
  turn : turn (net,a,out) = some ⟨e,ev.taken,out⟩
  role : ∀ self peer, ev = .makeThread self peer → decide (peer = 0) = e.acceptor
  nodes : net'.nodes = Function.update net.nodes (host e) ((net.nodes (host e)).put e r)
  chan : Fifo.Moves End.peer net.chan ⟨e,ev.taken,out⟩ net'.chan

theorem stepAt_played {rest : List PktMsg} (h : net.stepAt host e ev rest = .ok (out,net'))
    (hact : a = .event e ev ∨ ∃ pkt junk, a = .deliver e junk ∧ ev = .packet pkt junk)
    (hturn : turn (net,a,out) = some ⟨e,ev.taken,out⟩)
    (hrole : ∀ self peer, ev = .makeThread self peer → decide (peer = 0) = e.acceptor)
    (hrest : net.chan e.peer = ev.taken ++ rest) : ∃ r, Played host net a out net' e ev r := by
  obtain ⟨⟨out',n⟩,hx,h⟩ := Outcome.bind_eq_ok.mp h
  cases h
  obtain ⟨r,hr,rfl,rfl⟩ := Node.exec_event hx
  refine ⟨r,hr,rfl,hact,hturn,hrole,rfl,?_,?_,fun d hd hd' => ?_⟩
  · simp [hrest]
  · simp
  · simp only at hd hd'
    simp [hd,hd']

/-- The inversion of `exec`: a write of an unchoke handler, or the turn of an end. -/
theorem exec_played (h : net.exec host a = .ok (out,net')) :
    (∃ i k choked, a = .choke i k choked ∧ net' =
      { net with nodes := Function.update net.nodes i ((net.nodes i).leaveChoked k choked) }) ∨
    ∃ e ev r, Played host net a out net' e ev r := by
  cases a with
  | choke i k choked =>
    cases h
    exact Or.inl ⟨i,k,choked,rfl,rfl⟩
  | event e ev =>
    right
    simp only [exec] at h
    split at h
    · rename_i hl
      have htaken : ev.taken = [] := by
        cases ev with
        | packet pkt junk => cases hl
        | _ => rfl
      have hrole : ∀ self peer, ev = .makeThread self peer → decide (peer = 0) = e.acceptor := by
        rintro self peer rfl
        exact beq_iff_eq.mp hl
      obtain ⟨r,hr⟩ := stepAt_played h (Or.inl rfl) (by rw [htaken]; rfl) hrole (by rw [htaken]; rfl)
      exact ⟨e,ev,r,hr⟩
    · cases h
  | deliver e junk =>
    right
    simp only [exec] at h
    cases hc : net.chan e.peer with
    | nil =>
      simp only [hc] at h
      cases h
    | cons pkt rest =>
      simp only [hc] at h
      obtain ⟨r,hr⟩ := stepAt_played h (Or.inr ⟨pkt,junk,rfl,rfl⟩) (by simp [turn,hc,Event.taken])
        (by intro self peer heq; cases heq) hc
      exact ⟨e,_,r,hr⟩

/-! ## What a turn changes -/

theorem Played.moved (h : Played host net a out net' e ev r) :
    Moved ((net.nodes (host e)).session e) (net.thread host e).phase ev r.1 r.2 := event_moved h.event

theorem Played.said (h : Played host net a out net' e ev r) :
    Said ((net.nodes (host e)).session e) ev out := by
  obtain ⟨new,hout,hsaid⟩ := event_said h.event
  rw [h.output,hout]
  exact hsaid

theorem Played.sent (h : Played host net a out net' e ev r) : net'.chan e = net.chan e ++ r.1.out := by
  rw [← h.output]
  exact h.chan.appended

theorem Played.self (h : Played host net a out net' e ev r) : net'.thread host e = ⟨r.1.conn,r.2⟩ := by
  simp [thread,h.nodes,Node.put_self]

theorem Played.other (h : Played host net a out net' e ev r) {d : End} (hd : d ≠ e) :
    net'.thread host d = net.thread host d := by
  by_cases hhost : host d = host e
  · simp [thread,h.nodes,hhost,Node.put_other _ hd]
  · simp [thread,h.nodes,hhost]

theorem Played.own (h : Played host net a out net' e ev r) : (net'.nodes (host e)).ost = r.1.ost := by
  simp [h.nodes,Node.put]

theorem Played.away (h : Played host net a out net' e ev r) {i : ℕ} (hi : i ≠ host e) :
    net'.nodes i = net.nodes i := by
  rw [h.nodes,Function.update_of_ne hi]

/-- A node that holds a piece keeps it. -/
theorem Played.keeps (h : Played host net a out net' e ev r) {i p : ℕ}
    (hp : bitAt (net.nodes i).ost.bfield.bfield p = true) : bitAt (net'.nodes i).ost.bfield.bfield p = true := by
  by_cases hi : i = host e
  · subst hi
    rw [h.own]
    exact h.moved.held.2 p hp
  · rwa [h.away hi]

theorem Played.own_length (h : Played host net a out net' e ev r) (i : ℕ) :
    (net'.nodes i).ost.bfield.bfield.length = (net.nodes i).ost.bfield.bfield.length := by
  by_cases hi : i = host e
  · rw [hi,h.own]
    exact h.moved.held.1
  · rw [h.away hi]

/-- A write of an unchoke handler leaves the threads and the stores. -/
theorem choke_frame (i k : ℕ) (choked : Bool) (net : Network) (j : ℕ) :
    (Function.update net.nodes i ((net.nodes i).leaveChoked k choked) j).ost = (net.nodes j).ost ∧
      (Function.update net.nodes i ((net.nodes i).leaveChoked k choked) j).threads = (net.nodes j).threads := by
  by_cases hj : j = i
  · subst hj
    rw [Function.update_self]
    exact ⟨rfl,rfl⟩
  · rw [Function.update_of_ne hj]
    exact ⟨rfl,rfl⟩

end Network

end BTRx
