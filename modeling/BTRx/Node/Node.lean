import BTRx.Base.Transition
import BTRx.Handler.Turn

/-! # A node with its handler threads

Every connection has a thread of its own, and all of them share the store and the
neighbour map. A turn of the loop is one step, except on a BitField: there other threads
run between the snapshot in `diff`, the single turns of the loop of `earmark` and the end
of the case.
-/
namespace BTRx
open ByteSet Memory LittleEndian Transition

/-- Where a handler stands between two of its steps. -/
inductive Phase
  | start
  | ready
  | diffing
  | marking (todo : List (ℕ × ℕ)) (ret : Bool)
  | closed
  deriving DecidableEq

/-- What can happen on a connection. -/
inductive Event
  | makeThread (peeridSelf peeridPeer : ℤ)
  | packet (pkt : PktMsg) (junk : Bytes)
  | resume
  | timeout
  | eof

/-- A step is not enabled, or it ends the process. -/
inductive Refusal
  | disabled
  | fault (f : Fault)

/-- The positions that the loop of `earmark` has still to visit. -/
def Phase.todo : Phase → List (ℕ × ℕ)
  | .marking todo _ => todo
  | _ => []

namespace Session

/-- A decoded packet, up to the point where other threads can come between. -/
def receive (pkt : PktMsg) (junk : Bytes) (s : Session) : Except Fault (Session × Phase) :=
  if pkt.type = .BitField then do
    let s ← s.chokeStatusCheck s.conn.chokedPeer
    return (s.recvBitField pkt,.diffing)
  else do
    let s ← s.handle pkt junk
    return (s,.ready)

/-- The loop is left. -/
def hangUp (s : Session) : Except Fault (Session × Phase) := do
  let s ← s.leave
  return (s,.closed)

def expire (s : Session) : Except Fault (Session × Phase) :=
  if s.timeout.2 then .ok (s.timeout.1,.ready) else s.timeout.1.hangUp

def compare (s : Session) : Except Fault (Session × Phase) := do
  let diff ← s.ost.bfield.diff s.conn.bfieldPeer s.conn.diff
  return ({ s with conn := { s.conn with diff } },.marking (positions diff.length) false)

def mark (ij : ℕ × ℕ) (todo : List (ℕ × ℕ)) (ret : Bool) (s : Session) :
    Except Fault (Session × Phase) := do
  let e ← Earmarking.turn ⟨s.nmap.bfield,s.conn.diff,ret⟩ ij
  return ({ s with nmap := { s.nmap with bfield := e.bfield }, conn := { s.conn with diff := e.diff } },
    .marking todo e.ret)

/-- One step of a thread. -/
def event (s : Session) : Phase → Event → Except Refusal (Session × Phase)
  | .start,.makeThread peeridSelf peeridPeer =>
    .ok (({ s with conn := Conn.new peeridSelf peeridPeer } : Session).start,.ready)
  | .ready,.packet pkt junk => (s.receive pkt junk).mapError .fault
  | .ready,.timeout => s.expire.mapError .fault
  | .ready,.eof => s.hangUp.mapError .fault
  | .diffing,.resume => s.compare.mapError .fault
  | .marking (ij :: todo) ret,.resume => (s.mark ij todo ret).mapError .fault
  | .marking [] ret,.resume => .ok (s.answerBitField ret,.ready)
  | _,_ => .error .disabled

end Session

structure Thread where
  conn : Conn
  phase : Phase

/-- The place of a thread that `make_thread` has not started yet. -/
def Thread.new : Thread := ⟨Conn.new 0 0,.start⟩

structure Node (ι : Type) where
  ost : ObjStore
  nmap : NbrMap
  threads : ι → Thread

/-- A step of a thread, or a write of an unchoke handler to `nbr->choked`. -/
inductive Act (ι : Type)
  | thread (c : ι) (ev : Event)
  | choke (k : ℕ) (choked : Bool)

/-- Steps of a node with the states before them, newest first. -/
abbrev NodeHist (ι : Type) := List (Node ι × Act ι × List PktMsg)

namespace Node
variable {ι : Type} [DecidableEq ι]

omit [DecidableEq ι] in
/-- What a thread works on; `out` collects the packets of one step. -/
def session (n : Node ι) (c : ι) : Session := ⟨n.ost,n.nmap,(n.threads c).conn,[]⟩

def put (n : Node ι) (c : ι) (r : Session × Phase) : Node ι where
  ost := r.1.ost
  nmap := r.1.nmap
  threads := Function.update n.threads c ⟨r.1.conn,r.2⟩

omit [DecidableEq ι] in
def leaveChoked (n : Node ι) (k : ℕ) (choked : Bool) : Node ι :=
  { n with nmap := { n.nmap with nbrs := n.nmap.nbrs.modify k fun nbr => { nbr with choked } } }

/-- One step of the node, with the packets it sends. -/
def exec (n : Node ι) : Act ι → Except Refusal (List PktMsg × Node ι)
  | .thread c ev => do
    let r ← (n.session c).event (n.threads c).phase ev
    return (r.1.out,n.put c r)
  | .choke k choked => .ok ([],n.leaveChoked k choked)

/-- A node before its first connection. -/
structure Fresh (n : Node ι) : Prop where
  npcs : n.ost.npcs < 2 ^ 31
  own : n.ost.bfield.bfield.length = (n.ost.npcs + 7) / 8
  marks : n.nmap.bfield = Bfield.ofCount n.ost.npcs
  threads : ∀ c, n.threads c = Thread.new

end Node

end BTRx
