import BTRx.Handler.Turn
import BTRx.ObjStore.Access
import BTRx.Pkts.Codec

/-! # A file on its way to another node

Every piece goes through `send_piece`, the codec and `handle_piece`. The way ends at the
codec: the receiver cannot decode any piece, so that no transfer gets past its first
request.
-/
namespace BTRx
open Memory ByteSet LittleEndian

/-- The store has the file of the given bytes, in pieces of `size` bytes. -/
structure ObjStore.HasFile (s : ObjStore) (size : ℕ) (data : Bytes) : Prop where
  fsz : s.fsz = data.length
  pcsz : s.pcsz = size
  npcs : s.npcs = npcsOf data.length size
  cache : s.cache.pcsz = size
  file : s.cache.file.data = data.map some
  bits : ∀ p : ℕ, p < npcsOf data.length size → s.bfield.exists p = .ok true

namespace Session
variable {s s' : Session} {pcno : UInt32} {junk : Bytes}

/-- A packet is encoded by `snd`, decoded by `cli_handler` and given to `handle_piece`. -/
def recvPiece (pkt : PktMsg) (s : Session) : Except Fault Session := do
  let bson ← pkt.encode
  let pkt ← PktMsg.decode bson
  s.handlePiece pkt

theorem recvPiece_error {pkt : PktMsg} (ht : pkt.type = .Piece) (hlen : pkt.piece.payload.length + 1 ≤ 2 ^ 32)
    (s : Session) : s.recvPiece pkt = .error .uncaught := by
  obtain ⟨doc,hdoc⟩ := pkt.encode_ok
  rw [recvPiece,hdoc,Outcome.ok_bind,PktMsg.decode_piece hdoc ht hlen,Outcome.error_bind]

/-- A sent piece has no more bytes than the buffer and the memory behind it. -/
theorem sendPiece_payload (h : s.sendPiece pcno junk = .ok s') : ∃ payload,
    s'.out = s.out ++ [{ type := .Piece, piece := { pcno, payload } }] ∧
    payload.length ≤ s.ost.cache.pcsz + junk.length := by
  obtain ⟨p,_,_,_,buf,cache,hget,rfl⟩ := sendPiece_eq_ok h
  refine ⟨_,rfl,?_⟩
  have hbuf := cString_length_le buf junk
  rwa [Cache.get_length hget] at hbuf

end Session

/-- The bytes of a file, the numbers of the pieces in the order in which they are asked
for, and the two nodes. -/
structure Transfer where
  pcsz : ℕ
  data : Bytes
  order : List UInt32
  source : Session
  target : Session

namespace Transfer
variable {x : Transfer}

def npcs (x : Transfer) : ℕ := npcsOf x.data.length x.pcsz

/-- One request: `send_piece` at the source, with `req.2` behind its buffer, and
`handle_piece` at the target. -/
def sendOne (nodes : Session × Session) (req : UInt32 × Bytes) : Except Fault (Session × Session) := do
  let source ← Session.sendPiece req.1 req.2 { nodes.1 with out := [] }
  let target ← source.out.foldlM (fun s pkt => s.recvPiece pkt) nodes.2
  return (source,target)

/-- The sizes are of type `int`, and every piece is asked for. -/
structure Valid (x : Transfer) : Prop where
  pcsz_pos : 0 < x.pcsz
  pcsz_lt : x.pcsz < 2 ^ 31
  data_ne : x.data ≠ []
  data_lt : x.data.length < 2 ^ 31
  order : ∀ p : UInt32, p ∈ x.order ↔ p.toNat < x.npcs
  source : x.source.ost.HasFile x.pcsz x.data
  target : ∃ s, ObjStore.new x.data.length x.pcsz x.npcs = .ok s ∧ x.target.ost = s.bfieldInit false []

/-- Whatever stands behind the buffers, all requests are answered and the target has the
file in the end. -/
def Integrity (x : Transfer) : Prop :=
  ∀ reqs : List (UInt32 × Bytes), reqs.map Prod.fst = x.order → ∃ source target,
    reqs.foldlM sendOne (x.source,x.target) = .ok (source,target) ∧ target.ost.HasFile x.pcsz x.data

theorem sendOne_error (nodes : Session × Session) {req : UInt32 × Bytes}
    (hlen : nodes.1.ost.cache.pcsz + req.2.length + 1 ≤ 2 ^ 32) :
    ∃ f, sendOne nodes req = .error f := by
  unfold sendOne
  cases hsend : Session.sendPiece req.1 req.2 { nodes.1 with out := [] } with
  | error f => exact ⟨f,rfl⟩
  | ok source =>
    obtain ⟨payload,hout,hle⟩ := Session.sendPiece_payload hsend
    have hfit : payload.length + 1 ≤ 2 ^ 32 := (Nat.add_le_add_right hle 1).trans hlen
    rw [Outcome.ok_bind,hout,List.nil_append,List.foldlM_cons,Session.recvPiece_error rfl hfit]
    exact ⟨.uncaught,rfl⟩

theorem Valid.order_ne (h : x.Valid) : x.order ≠ [] := by
  have hpos : 0 < x.npcs := npcsOf_pos (List.length_pos_of_ne_nil h.data_ne) h.pcsz_pos
  exact List.ne_nil_of_mem ((h.order 0).mpr hpos)

/-- No transfer gets past its first request. -/
theorem Valid.stops (h : x.Valid) {reqs : List (UInt32 × Bytes)} (hreqs : reqs.map Prod.fst = x.order)
    (hjunk : ∀ req ∈ reqs, x.pcsz + req.2.length + 1 ≤ 2 ^ 32) :
    ∃ f, reqs.foldlM sendOne (x.source,x.target) = .error f := by
  cases reqs with
  | nil => exact absurd hreqs.symm h.order_ne
  | cons req reqs =>
    have hlen := hjunk req List.mem_cons_self
    rw [← h.source.cache] at hlen
    obtain ⟨f,hf⟩ := sendOne_error (x.source,x.target) hlen
    exact ⟨f,by rw [List.foldlM_cons,hf,Outcome.error_bind]⟩

theorem not_integrity (h : x.Valid) : ¬ x.Integrity := by
  intro hint
  have hlt := h.pcsz_lt
  have hreqs : (x.order.map (fun p => (p,([] : Bytes)))).map Prod.fst = x.order := by
    rw [List.map_map]
    exact List.map_id _
  obtain ⟨f,hf⟩ := h.stops hreqs (by simp; omega)
  obtain ⟨source,target,hrun,_⟩ := hint _ hreqs
  rw [hf] at hrun
  cases hrun

/-- The transfer of a file that is read from the beginning, with nothing in the caches. -/
def ofFile (pcsz : ℕ) (data : Bytes) (order : List UInt32) : Transfer :=
  let npcs := npcsOf data.length pcsz
  let cache : Cache := ⟨∅,[],[],⟨data.map some,0⟩,pcsz,npcs,cachesz / npcs⟩
  let node (ost : ObjStore) : Session := { ost, nmap := NbrMap.new 1 npcs, conn := Conn.new 1 0, out := [] }
  { pcsz, data, order
    source := node ⟨data.length,pcsz,npcs,cache,⟨List.replicate ((npcs + 7) / 8) 255⟩⟩
    target := node (ObjStore.bfieldInit ⟨data.length,pcsz,npcs,cache,⟨[]⟩⟩ false []) }

theorem valid_ofFile {pcsz : ℕ} {data : Bytes} {order : List UInt32} (hpcsz : 0 < pcsz) (hlt : pcsz < 2 ^ 31)
    (hne : data ≠ []) (hdata : data.length < 2 ^ 31)
    (horder : ∀ p : UInt32, p ∈ order ↔ p.toNat < npcsOf data.length pcsz) : (ofFile pcsz data order).Valid := by
  refine ⟨hpcsz,hlt,hne,hdata,horder,⟨rfl,rfl,rfl,rfl,rfl,fun p hp => ?_⟩,?_⟩
  · have hall : ∀ j < 8, bit 255 j = true := by decide
    have hbound : p < 8 * ((npcsOf data.length pcsz + 7) / 8) := lt_of_lt_of_le hp (by dsimp only [ofFile]; omega)
    have hbit := (bitAt_replicate 255 hbound).trans (hall _ (Nat.mod_lt p (by decide)))
    exact (Bfield.exists_of_lt (by simpa [ofFile] using hbound)).trans (congrArg _ hbit)
  · have hpos := npcsOf_pos (List.length_pos_of_ne_nil hne) hpcsz
    exact ⟨_,ObjStore.new_eq_ok.mpr ⟨Nat.ne_of_gt hpos,rfl⟩,rfl⟩

theorem not_integrity_two : ¬ (ofFile 2 [97,98,99] [1,0]).Integrity := by
  refine not_integrity (valid_ofFile (by decide) (by decide) (by decide) (by decide) fun p => ?_)
  have hnpcs : npcsOf [(97 : UInt8),98,99].length 2 = 2 := rfl
  rw [hnpcs,List.mem_cons,List.mem_singleton,← UInt32.toNat_inj,← UInt32.toNat_inj]
  simp only [UInt32.reduceToNat]
  omega

/-- A file of one byte, asked for once. -/
theorem not_integrity_single : (ofFile 1 [97] [0]).Valid ∧ ¬ (ofFile 1 [97] [0]).Integrity := by
  have hvalid : (ofFile 1 [97] [0]).Valid := by
    refine valid_ofFile (by decide) (by decide) (by decide) (by decide) fun p => ?_
    have hnpcs : npcsOf [(97 : UInt8)].length 1 = 1 := rfl
    rw [hnpcs,List.mem_singleton,Nat.lt_one_iff,← UInt32.toNat_inj]
    rfl
  refine ⟨hvalid,fun h => ?_⟩
  have hreqs : [((0 : UInt32),([] : Bytes))].map Prod.fst = (ofFile 1 [97] [0]).order := rfl
  obtain ⟨f,hf⟩ := hvalid.stops hreqs (by decide)
  obtain ⟨source,target,hrun,_⟩ := h _ hreqs
  rw [hf] at hrun
  cases hrun

end Transfer

end BTRx
