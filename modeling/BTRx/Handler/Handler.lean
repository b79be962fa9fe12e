import BTRx.NbrMap.NbrMap
import BTRx.Pkts.Pkts

/-! # The connection handler

`Conn` holds the local variables of `cli_handler`, and a `Session` is a connection
together with what it shares with the others and with the packets it has sent. The
helpers take and return sessions in the place of their pointer arguments. `send` takes
every packet, log messages are left out, and a map is walked in the order it is kept in.
-/
namespace BTRx
open Memory ByteSet LittleEndian

/-- `unordered_map<uint32_t, bool>`. -/
abbrev Reqs := AList (fun _ : UInt32 => Bool)

structure Conn where
  client : Bool
  peeridSelf : ℤ
  ntimeouts : ℕ
  chokedNode : Bool
  chokedPeer : Bool
  nbr : Option ℕ
  diff : List UInt8
  bfieldPeer : List UInt8
  reqs : Reqs

/-- The local variables on entry; `peeridPeer` is 0 on an accepted connection. -/
def Conn.new (peeridSelf peeridPeer : ℤ) : Conn :=
  { client := decide (peeridPeer = 0), peeridSelf, ntimeouts := 0, chokedNode := false,
    chokedPeer := false, nbr := none, diff := [], bfieldPeer := [], reqs := ∅ }

structure Session where
  ost : ObjStore
  nmap : NbrMap
  conn : Conn
  out : List PktMsg

namespace Session

/-! ## Outhelper -/

def send (pkt : PktMsg) (s : Session) : Session := { s with out := s.out ++ [pkt] }

/-- The text and its closing zero fill the 19 bytes of the header. -/
def sendHandshake (s : Session) : Session :=
  s.send { type := .Handshake, hshake :=
    { header := #v[80,50,80,70,73,76,69,83,72,65,82,73,78,71,80,82,79,74,0]
      zero := Vector.replicate 10 0
      peerid := UInt32.ofInt s.conn.peeridSelf } }

def sendBfield (s : Session) : Session :=
  s.send { type := .BitField, bfield := ⟨s.ost.bfield.clone⟩ }

def sendInterested (s : Session) : Session := s.send { type := .Interested }

def sendNotInterested (s : Session) : Session := s.send { type := .NotInterested }

def requestPkt (pcno : UInt32) : PktMsg := { type := .Request, req := ⟨pcno⟩ }

def sendRequests (s : Session) : Session :=
  { s with out := s.out ++ s.conn.reqs.keys.map requestPkt }

/-- `send_piece`; `junk` is what `string(buf)` finds behind the buffer. -/
def sendPiece (pcno : UInt32) (junk : Bytes) (s : Session) : Except Fault Session := do
  let (r,buf,ost) ← s.ost.getPiece (toInt pcno.toNat)
  if r = 0 then throw .exit
  let piece := cString buf junk
  return ({ s with ost }).send { type := .Piece, piece := { pcno, payload := piece } }

def sendChokeStatus (choke : Bool) (s : Session) : Session :=
  if choke then s.send { type := .Choke } else s.send { type := .UnChoke }

def havePkt (pcno : UInt32) : PktMsg := { type := .Have, «have» := ⟨pcno⟩ }

/-- The number a handler gives to bit `j` of byte `i`. -/
def pcnoAt (ij : ℕ × ℕ) : UInt32 := UInt32.ofNat (ij.1 * 8 + ij.2)

/-- The bits of a vector in the order of the double loops. -/
def setPositions (v : List UInt8) : List (ℕ × ℕ) :=
  (positions v.length).filter (fun ij => v.getD ij.1 0 &&& mask ij.2 = mask ij.2)

def sendHaves (s : Session) : Session :=
  { s with out := s.out ++ (((setPositions s.conn.bfieldPeer).map pcnoAt).filter
    (fun pcno => s.ost.exists pcno)).map havePkt }

/-! ## Inhelper -/

/-- `handle_piece`. -/
def handlePiece (pkt : PktMsg) (s : Session) : Except Fault Session := do
  let pcno := pkt.piece.pcno
  let piece := snprintf s.ost.pcsz (pkt.piece.payload.map some ++ [some 0])
  let (_,ost) ← s.ost.addPiece (toInt pcno.toNat) piece
  return { s with ost, conn := { s.conn with reqs := s.conn.reqs.erase pcno } }

/-- `handle_have`. -/
def handleHave (pkt : PktMsg) (s : Session) : Session :=
  if pkt.have.pcno ∈ s.conn.reqs then s.sendInterested.send (requestPkt pkt.have.pcno) else s

/-! ## cli_handler -/

/-- The object `nbr` points to. -/
def nbrAt (s : Session) : Except Fault (ℕ × Nbr) :=
  match s.conn.nbr with
  | none => .error .nullPointer
  | some k =>
    match s.nmap.nbrs[k]? with
    | some nbr => .ok (k,nbr)
    | none => .error .danglingPointer

def setNbr (k : ℕ) (nbr : Nbr) (s : Session) : Session :=
  { s with nmap := { s.nmap with nbrs := s.nmap.nbrs.set k nbr } }

/-- `choke_status_check`, whose `choked_peer` is a copy of the caller's variable. -/
def chokeStatusCheck (chokedPeer : Bool) (s : Session) : Except Fault Session := do
  if s.conn.nbr.isNone then return s
  let (_,nbr) ← s.nbrAt
  let chokedTmp := chokedPeer
  let chokedPeer := nbr.choked
  return if chokedTmp ≠ chokedPeer then s.sendChokeStatus chokedPeer else s

/-- `diff_to_reqs`. -/
def diffToReqs (reqs : Reqs) (diff : List UInt8) : Reqs :=
  (setPositions diff).foldl (fun reqs ij => reqs.insert (pcnoAt ij) true) reqs

/-- The beginning of the BitField case, up to the call of `earmark`. -/
def recvBitField (pkt : PktMsg) (s : Session) : Session :=
  let s := { s with conn := { s.conn with bfieldPeer := pkt.bfield.bfield } }
  if s.conn.client then s.sendBfield else s

/-- The end of the BitField case, on the value `earmark` returned. -/
def answerBitField (interested : Bool) (s : Session) : Session :=
  if interested then
    let s := s.sendInterested
    let s := { s with conn := { s.conn with reqs := diffToReqs s.conn.reqs s.conn.diff } }
    if !s.conn.client && !s.conn.chokedNode then s.sendRequests else s
  else s.sendNotInterested

/-- The first half of the Request case. -/
def answerRequest (pcno : UInt32) (junk : Bytes) (s : Session) : Except Fault Session :=
  if !s.conn.chokedPeer then s.sendPiece pcno junk else .ok s

/-- The switch of `cli_handler`. -/
def dispatch (pkt : PktMsg) (junk : Bytes) (s : Session) : Except Fault Session :=
  match pkt.type with
  | .Handshake =>
    let s := if s.conn.client then s.sendHandshake else s
    let (nbr,nmap) := s.nmap.registerCli (toInt pkt.hshake.peerid.toNat)
    .ok { s with nmap, conn := { s.conn with nbr := some nbr } }
  | .Choke => .ok { s with conn := { s.conn with chokedNode := true } }
  | .UnChoke =>
    let s := { s with conn := { s.conn with chokedNode := false } }
    .ok s.sendRequests
  | .Interested => do
    let (k,nbr) ← s.nbrAt
    return s.setNbr k { nbr with interested := true }
  | .NotInterested => do
    let (k,nbr) ← s.nbrAt
    return s.setNbr k { nbr with interested := false }
  | .Have => .ok (s.handleHave pkt)
  | .BitField => do
    let s := s.recvBitField pkt
    let (interested,diff,nmap) ← s.nmap.earmark s.ost.bfield s.conn.bfieldPeer s.conn.diff
    return ({ s with nmap, conn := { s.conn with diff } }).answerBitField interested
  | .Request => do
    let (k,nbr) ← s.nbrAt
    let s := s.setNbr k { nbr with requests := nbr.requests + 1 }
    let s ← s.answerRequest pkt.req.pcno junk
    return if !s.conn.chokedNode then s.sendRequests else s
  | .Piece => s.handlePiece pkt
  | .Unnamed _ _ => .error .exit

/-- One turn of the loop on a decoded packet. -/
def handle (pkt : PktMsg) (junk : Bytes) (s : Session) : Except Fault Session := do
  let s ← s.chokeStatusCheck s.conn.chokedPeer
  s.dispatch pkt junk

/-- One turn of the loop on a timeout; the second value is whether the loop goes on. -/
def timeout (s : Session) : Session × Bool :=
  let s := s.sendRequests
  let s := { s with conn := { s.conn with ntimeouts := s.conn.ntimeouts + 1 } }
  if s.conn.ntimeouts % 2 = 0 then (s.sendHaves,true)
  else (s,decide (s.conn.ntimeouts ≠ 5))

/-- What `cli_handler` does before its loop. `send_bfield` reads a bitfield that is there: a
handler that `connback` has started before `bfield_init` is not modelled up to that call. -/
def start (s : Session) : Session :=
  if s.conn.client then s else s.sendHandshake.sendBfield

/-- What `cli_handler` does after its loop. -/
def leave (s : Session) : Except Fault Session := do
  let (k,nbr) ← s.nbrAt
  return s.setNbr k { nbr with done := true }

end Session

end BTRx
