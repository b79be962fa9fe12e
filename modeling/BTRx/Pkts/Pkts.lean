import BTRx.Json.BsonRoundTrip

/-! # The packets of the protocol

`PktMsg` carries a field for every message type, and `toJson` and `fromJson` only look at
the one its type selects. The two functions of a payload are written apart from each
other, so nothing but their texts makes them agree. A type code without a name can
arrive as well: no field is read for it.
-/
namespace BTRx
open LittleEndian Json

/-- The codes that have a name, `1 << 1` to `1 << 9`. -/
def messageCodes : List UInt16 := [2,4,8,16,32,64,128,256,512]

inductive MessageType
  | Handshake
  | Choke
  | UnChoke
  | Interested
  | NotInterested
  | Have
  | BitField
  | Request
  | Piece
  | Unnamed (code : UInt16) (h : code ∉ messageCodes)
  deriving DecidableEq

namespace MessageType

def code : MessageType → UInt16
  | Handshake => 2
  | Choke => 4
  | UnChoke => 8
  | Interested => 16
  | NotInterested => 32
  | Have => 64
  | BitField => 128
  | Request => 256
  | Piece => 512
  | Unnamed c _ => c

def ofCode (c : UInt16) : MessageType :=
  if h : c ∉ messageCodes then Unnamed c h
  else if c = 2 then Handshake
  else if c = 4 then Choke
  else if c = 8 then UnChoke
  else if c = 16 then Interested
  else if c = 32 then NotInterested
  else if c = 64 then Have
  else if c = 128 then BitField
  else if c = 256 then Request
  else Piece

@[simp] theorem ofCode_code (t : MessageType) : ofCode t.code = t := by
  cases t with
  | Unnamed c h => exact dif_pos h
  | _ => rfl

end MessageType

structure PktHandshake where
  header : Vector UInt8 19
  zero : Vector UInt8 10
  peerid : UInt32
  deriving DecidableEq

structure PktMsgHave where
  pcno : UInt32
  deriving DecidableEq

structure PktMsgBfield where
  bfield : Bytes
  deriving DecidableEq

structure PktMsgRequest where
  pcno : UInt32
  deriving DecidableEq

structure PktMsgPiece where
  pcno : UInt32
  payload : Bytes
  deriving DecidableEq

/-- The fields a brace initializer leaves out are zero. -/
structure PktMsg where
  type : MessageType
  hshake : PktHandshake := ⟨Vector.replicate 19 0,Vector.replicate 10 0,0⟩
  «have» : PktMsgHave := ⟨0⟩
  bfield : PktMsgBfield := ⟨[]⟩
  req : PktMsgRequest := ⟨0⟩
  piece : PktMsgPiece := ⟨0,[]⟩
  deriving DecidableEq

/-- The value of a `uint32_t`. -/
def Json.ofUInt32 (n : UInt32) : Json := .number_unsigned n.toNat

/-- The value of a `uint8_t` array or vector. -/
def Json.ofBytes (bs : Bytes) : Json := .array (bs.map (fun b => .number_unsigned b.toNat))

/-- `get_to` on an array of `n` bytes; elements past the end of the array are ignored. -/
def Json.getByteArray (n : ℕ) (j : Json) : Except Fault (Vector UInt8 n) := do
  let xs ← j.getArray
  if h : n ≤ xs.length then
    (Vector.ofFn (fun i : Fin n => xs[i])).mapM getByte
  else throw .uncaught

def Json.getUInt32 (j : Json) : Except Fault UInt32 := do
  return UInt32.ofNat (← j.getUnsigned 32)

/-- `get_to` on a `MessageType`, which takes any number but no boolean. -/
def Json.getMessageType (j : Json) : Except Fault MessageType :=
  match j with
  | .boolean _ => .error .uncaught
  | j => do return MessageType.ofCode (UInt16.ofNat (← j.getUnsigned 16))

def PktHandshake.toJson (pkt : PktHandshake) : Json :=
  braces [braces [.string (str "header"),ofBytes pkt.header.toList],
    braces [.string (str "zero"),ofBytes pkt.zero.toList],
    braces [.string (str "peerid"),ofUInt32 pkt.peerid]]

def PktHandshake.fromJson (j : Json) : Except Fault PktHandshake := do
  let header ← (← j.at (str "header")).getByteArray 19
  let zero ← (← j.at (str "zero")).getByteArray 10
  let peerid ← (← j.at (str "peerid")).getUInt32
  return { header, zero, peerid }

def PktMsgHave.toJson (pkt : PktMsgHave) : Json :=
  braces [braces [.string (str "pcno"),ofUInt32 pkt.pcno]]

def PktMsgHave.fromJson (j : Json) : Except Fault PktMsgHave := do
  return ⟨← (← j.at (str "pcno")).getUInt32⟩

def PktMsgBfield.toJson (pkt : PktMsgBfield) : Json :=
  braces [braces [.string (str "bfield"),ofBytes pkt.bfield]]

def PktMsgBfield.fromJson (j : Json) : Except Fault PktMsgBfield := do
  return ⟨← (← j.at (str "bfield")).getBytes⟩

def PktMsgRequest.toJson (pkt : PktMsgRequest) : Json :=
  braces [braces [.string (str "pcno"),ofUInt32 pkt.pcno]]

def PktMsgRequest.fromJson (j : Json) : Except Fault PktMsgRequest := do
  return ⟨← (← j.at (str "pcno")).getUInt32⟩

/-- The second brace closes before the payload, so the list has three elements. -/
def PktMsgPiece.toJson (pkt : PktMsgPiece) : Json :=
  braces [braces [.string (str "pcno"),ofUInt32 pkt.pcno],braces [.string (str "payload")],
    .string pkt.payload]

def PktMsgPiece.fromJson (j : Json) : Except Fault PktMsgPiece := do
  let pcno ← (← j.at (str "pcno")).getUInt32
  let payload ← (← j.at (str "payload")).getString
  return { pcno, payload }

def PktMsg.toJson (pkt : PktMsg) : Json :=
  let type := braces [.string (str "type"),.number_integer pkt.type.code.toNat]
  match pkt.type with
  | .Handshake => braces [type,braces [.string (str "hshake"),pkt.hshake.toJson]]
  | .Have => braces [type,braces [.string (str "have"),pkt.have.toJson]]
  | .BitField => braces [type,braces [.string (str "bfield"),pkt.bfield.toJson]]
  | .Request => braces [type,braces [.string (str "req"),pkt.req.toJson]]
  | .Piece => braces [type,braces [.string (str "piece"),pkt.piece.toJson]]
  | _ => braces [type]

/-- `j.get<PktMsg>()`. What the type does not select stays as it was initialized. -/
def PktMsg.fromJson (j : Json) : Except Fault PktMsg := do
  let type ← (← j.at (str "type")).getMessageType
  match type with
  | .Handshake => return { type, hshake := ← PktHandshake.fromJson (← j.at (str "hshake")) }
  | .Have => return { type, «have» := ← PktMsgHave.fromJson (← j.at (str "have")) }
  | .BitField => return { type, bfield := ← PktMsgBfield.fromJson (← j.at (str "bfield")) }
  | .Request => return { type, req := ← PktMsgRequest.fromJson (← j.at (str "req")) }
  | .Piece => return { type, piece := ← PktMsgPiece.fromJson (← j.at (str "piece")) }
  | _ => return { type }

/-- The document `snd` sends. -/
def PktMsg.encode (pkt : PktMsg) : Except Fault Bytes := Bson.toBson pkt.toJson

/-- What `cli_handler` makes of a received document. Documents with a double are left out: the
library reads them and converts the number, here they are refused. -/
def PktMsg.decode (bson : Bytes) : Except Fault PktMsg := do
  PktMsg.fromJson (← Bson.fromBson bson)

/-- The same type, and the same value in the field this type carries. -/
def PktMsg.Carries (pkt pkt' : PktMsg) : Prop :=
  pkt'.type = pkt.type ∧ match pkt.type with
    | .Handshake => pkt'.hshake = pkt.hshake
    | .Have => pkt'.have = pkt.have
    | .BitField => pkt'.bfield = pkt.bfield
    | .Request => pkt'.req = pkt.req
    | .Piece => pkt'.piece = pkt.piece
    | _ => True

end BTRx
