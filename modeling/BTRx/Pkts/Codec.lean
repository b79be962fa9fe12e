import BTRx.Pkts.Pkts

/-! # Packets through the wire

Reading ignores the sign of numbers, so it is enough to compare `fromJson` with `toJson`
and to let the document codec do the rest. The comparison holds for every type but
`Piece`: its payload is written as an array, and `at` throws on an array.
-/
namespace BTRx
open LittleEndian Json

theorem getByte_toNat (b : UInt8) : getByte (.number_unsigned b.toNat) = .ok b := by
  have hlt := b.toNat_lt
  simp only [getByte,getUnsigned,Outcome.ok_bind,Outcome.pure_eq,Nat.mod_eq_of_lt hlt,
    UInt8.ofNat_toNat]

theorem getByteArray_ofBytes {n : ℕ} (v : Vector UInt8 n) :
    getByteArray n (ofBytes v.toList) = .ok v := by
  have hn : n ≤ (v.toList.map (fun b : UInt8 => Json.number_unsigned b.toNat)).length := by simp
  have hv : Vector.ofFn (fun i : Fin n =>
      (v.toList.map (fun b : UInt8 => Json.number_unsigned b.toNat))[i]) =
      v.map (fun b : UInt8 => Json.number_unsigned b.toNat) := by
    apply Vector.ext
    intro i hi
    simp
  have hb : getByte ∘ (fun b : UInt8 => Json.number_unsigned b.toNat) = fun b => pure b := by
    funext b
    exact getByte_toNat b
  simp only [getByteArray,ofBytes,getArray,Outcome.ok_bind,dif_pos hn]
  rw [hv,Vector.mapM_map,hb,Vector.mapM_pure,Vector.map_id']
  rfl

theorem getBytes_ofBytes (bs : Bytes) : getBytes (ofBytes bs) = .ok bs := by
  simp only [getBytes,ofBytes,getArray,Outcome.ok_bind]
  induction bs with
  | nil => rfl
  | cons b bs ih =>
    simp only [List.map_cons,List.mapM_cons,ih,getByte_toNat,Outcome.ok_bind,Outcome.pure_eq]

theorem getUInt32_ofUInt32 (n : UInt32) : getUInt32 (ofUInt32 n) = .ok n := by
  have hlt := n.toNat_lt
  simp only [getUInt32,ofUInt32,getUnsigned,Outcome.ok_bind,Outcome.pure_eq,Nat.mod_eq_of_lt hlt,
    UInt32.ofNat_toNat]

theorem getMessageType_code (t : MessageType) :
    getMessageType (.number_integer t.code.toNat) = .ok t := by
  have hlt : (t.code.toNat : ℤ) < 2 ^ 16 := by exact_mod_cast t.code.toNat_lt
  have hmod : ((t.code.toNat : ℤ) % 2 ^ 16).toNat = t.code.toNat := by omega
  simp only [getMessageType,getUnsigned,Outcome.ok_bind,Outcome.pure_eq,hmod,UInt16.ofNat_toNat,
    MessageType.ofCode_code]

/-! ## Decoding does not see signs -/

theorem map_bind {α β γ : Type} (x : Except Fault α) (f : α → β) (g : β → Except Fault γ) :
    (x.map f >>= g) = (x >>= fun a => g (f a)) := by
  cases x <;> rfl

theorem getByteArray_signedForm (n : ℕ) (j : Json) :
    getByteArray n (signedForm j) = getByteArray n j := by
  cases j with
  | array xs =>
    simp only [signedForm,getByteArray,getArray,Outcome.ok_bind,signedElements_eq_map,List.length_map]
    by_cases h : n ≤ xs.length
    · have hlen : n ≤ (xs.map signedForm).length := by rwa [List.length_map]
      have hv : Vector.ofFn (fun i : Fin n => (xs.map signedForm)[i]) =
          (Vector.ofFn (fun i : Fin n => xs[i])).map signedForm := by
        apply Vector.ext
        intro i hi
        simp
      have hb : getByte ∘ signedForm = getByte := by
        funext x
        exact getByte_signedForm x
      simp only [dif_pos h]
      rw [hv,Vector.mapM_map,hb]
    · simp only [dif_neg h]
  | _ => rfl

theorem getUInt32_signedForm (j : Json) : getUInt32 (signedForm j) = getUInt32 j := by
  simp only [getUInt32,getUnsigned_signedForm]

theorem getMessageType_signedForm (j : Json) : getMessageType (signedForm j) = getMessageType j := by
  have h := getUnsigned_signedForm 16 j
  cases j <;> simp_all only [getMessageType,signedForm]

theorem PktMsg.fromJson_signedForm (j : Json) : fromJson (signedForm j) = fromJson j := by
  simp only [fromJson,PktHandshake.fromJson,PktMsgHave.fromJson,PktMsgBfield.fromJson,
    PktMsgRequest.fromJson,PktMsgPiece.fromJson,at_signedForm,map_bind,getMessageType_signedForm,
    getByteArray_signedForm,getUInt32_signedForm,getBytes_signedForm,getString_signedForm]

/-! ## One lemma for each payload -/

theorem PktHandshake.fromJson_toJson (pkt : PktHandshake) : fromJson pkt.toJson = .ok pkt := by
  have h1 : pkt.toJson.at (str "header") = .ok (ofBytes pkt.header.toList) := rfl
  have h2 : pkt.toJson.at (str "zero") = .ok (ofBytes pkt.zero.toList) := rfl
  have h3 : pkt.toJson.at (str "peerid") = .ok (ofUInt32 pkt.peerid) := rfl
  simp only [fromJson,h1,h2,h3,Outcome.ok_bind,getByteArray_ofBytes,getUInt32_ofUInt32,
    Outcome.pure_eq]

theorem PktMsgHave.fromJson_toJson (pkt : PktMsgHave) : fromJson pkt.toJson = .ok pkt := by
  have h : pkt.toJson.at (str "pcno") = .ok (ofUInt32 pkt.pcno) := rfl
  simp only [fromJson,h,Outcome.ok_bind,getUInt32_ofUInt32,Outcome.pure_eq]

theorem PktMsgBfield.fromJson_toJson (pkt : PktMsgBfield) : fromJson pkt.toJson = .ok pkt := by
  have h : pkt.toJson.at (str "bfield") = .ok (ofBytes pkt.bfield) := rfl
  simp only [fromJson,h,Outcome.ok_bind,getBytes_ofBytes,Outcome.pure_eq]

theorem PktMsgRequest.fromJson_toJson (pkt : PktMsgRequest) : fromJson pkt.toJson = .ok pkt := by
  have h : pkt.toJson.at (str "pcno") = .ok (ofUInt32 pkt.pcno) := rfl
  simp only [fromJson,h,Outcome.ok_bind,getUInt32_ofUInt32,Outcome.pure_eq]

/-- The written piece is an array, and `at` throws on an array. -/
theorem PktMsgPiece.fromJson_toJson (pkt : PktMsgPiece) : fromJson pkt.toJson = .error .uncaught :=
  rfl

/-- The fields of the object that a packet is written as. -/
def PktMsg.fields (pkt : PktMsg) : List (Bytes × Json) :=
  let type := (str "type",Json.number_integer pkt.type.code.toNat)
  match pkt.type with
  | .Handshake => [(str "hshake",pkt.hshake.toJson),type]
  | .Have => [(str "have",pkt.have.toJson),type]
  | .BitField => [(str "bfield",pkt.bfield.toJson),type]
  | .Request => [(str "req",pkt.req.toJson),type]
  | .Piece => [(str "piece",pkt.piece.toJson),type]
  | _ => [type]

theorem PktMsg.toJson_eq (pkt : PktMsg) : pkt.toJson = .object pkt.fields := by
  obtain ⟨type,hshake,hve,bfield,req,piece⟩ := pkt
  cases type <;> rfl

theorem PktMsg.at_type (pkt : PktMsg) :
    pkt.toJson.at (str "type") = .ok (.number_integer pkt.type.code.toNat) := by
  obtain ⟨type,hshake,hve,bfield,req,piece⟩ := pkt
  cases type <;> rfl

theorem PktMsg.fromJson_toJson {pkt : PktMsg} (h : pkt.type ≠ .Piece) :
    ∃ pkt', fromJson pkt.toJson = .ok pkt' ∧ pkt.Carries pkt' := by
  have ht := pkt.at_type
  generalize hj : pkt.toJson = j at ht
  obtain ⟨type,hshake,hve,bfield,req,piece⟩ := pkt
  unfold fromJson
  rw [ht]
  simp only [Outcome.ok_bind,getMessageType_code]
  cases type with
  | Handshake =>
    have hv : j.at (str "hshake") = .ok hshake.toJson := by rw [← hj]; rfl
    simp only [hv,Outcome.ok_bind,PktHandshake.fromJson_toJson,Outcome.pure_eq]
    exact ⟨_,rfl,rfl,rfl⟩
  | Have =>
    have hv : j.at (str "have") = .ok hve.toJson := by rw [← hj]; rfl
    simp only [hv,Outcome.ok_bind,PktMsgHave.fromJson_toJson,Outcome.pure_eq]
    exact ⟨_,rfl,rfl,rfl⟩
  | BitField =>
    have hv : j.at (str "bfield") = .ok bfield.toJson := by rw [← hj]; rfl
    simp only [hv,Outcome.ok_bind,PktMsgBfield.fromJson_toJson,Outcome.pure_eq]
    exact ⟨_,rfl,rfl,rfl⟩
  | Request =>
    have hv : j.at (str "req") = .ok req.toJson := by rw [← hj]; rfl
    simp only [hv,Outcome.ok_bind,PktMsgRequest.fromJson_toJson,Outcome.pure_eq]
    exact ⟨_,rfl,rfl,rfl⟩
  | Piece => exact absurd rfl h
  | _ => exact ⟨_,rfl,rfl,trivial⟩

theorem PktMsg.fromJson_toJson_piece {pkt : PktMsg} (h : pkt.type = .Piece) :
    fromJson pkt.toJson = .error .uncaught := by
  have ht := pkt.at_type
  generalize hj : pkt.toJson = j at ht
  obtain ⟨type,hshake,hve,bfield,req,piece⟩ := pkt
  obtain rfl : type = .Piece := h
  have hv : j.at (str "piece") = .ok piece.toJson := by rw [← hj]; rfl
  simp only [fromJson,ht,Outcome.ok_bind,getMessageType_code,hv,PktMsgPiece.fromJson_toJson,
    Outcome.error_bind]

/-! ## The document of a packet -/

open Bson

theorem writes_uint32 (n : UInt32) : Writes (ofUInt32 n) := by
  have hlt := n.toNat_lt
  exact writes_unsigned (by omega)

theorem writes_bytes (bs : Bytes) : Writes (ofBytes bs) := by
  apply writes_array
  intro x hx
  obtain ⟨b,_,rfl⟩ := List.mem_map.mp hx
  have hlt := b.toNat_lt
  exact writes_unsigned (by omega)

theorem fits_bytes (bs : Bytes) : StringsFit (ofBytes bs) := by
  rw [ofBytes,StringsFit,elementsFit_iff]
  intro x hx
  obtain ⟨b,_,rfl⟩ := List.mem_map.mp hx
  trivial

theorem PktHandshake.writes (pkt : PktHandshake) : Writes pkt.toJson ∧ StringsFit pkt.toJson := by
  have hs : pkt.toJson = .object [(str "header",ofBytes pkt.header.toList),
      (str "peerid",ofUInt32 pkt.peerid),(str "zero",ofBytes pkt.zero.toList)] := rfl
  rw [hs]
  refine ⟨writes_object ?_,fits_bytes _,trivial,fits_bytes _,trivial⟩
  simp only [List.forall_mem_cons,List.not_mem_nil,false_implies,implies_true,and_true]
  exact ⟨⟨by decide,writes_bytes _⟩,⟨by decide,writes_uint32 _⟩,⟨by decide,writes_bytes _⟩⟩

/-- An object with one field. -/
theorem writes_single {key : Bytes} {v : Json} (hkey : 0 ∉ key) (hv : Writes v)
    (hfit : StringsFit v) : Writes (.object [(key,v)]) ∧ StringsFit (.object [(key,v)]) := by
  refine ⟨writes_object ?_,hfit,trivial⟩
  simpa using ⟨hkey,hv⟩

theorem PktMsgHave.writes (pkt : PktMsgHave) : Writes pkt.toJson ∧ StringsFit pkt.toJson :=
  writes_single (show 0 ∉ str "pcno" by decide) (writes_uint32 pkt.pcno) trivial

theorem PktMsgBfield.writes (pkt : PktMsgBfield) : Writes pkt.toJson ∧ StringsFit pkt.toJson :=
  writes_single (show 0 ∉ str "bfield" by decide) (writes_bytes pkt.bfield) (fits_bytes pkt.bfield)

theorem PktMsgRequest.writes (pkt : PktMsgRequest) : Writes pkt.toJson ∧ StringsFit pkt.toJson :=
  writes_single (show 0 ∉ str "pcno" by decide) (writes_uint32 pkt.pcno) trivial

theorem PktMsgPiece.writes (pkt : PktMsgPiece) : Writes pkt.toJson ∧
    (StringsFit pkt.toJson ↔ pkt.payload.length + 1 < 2 ^ 31) := by
  have hs : pkt.toJson = .array [.array [.string (str "pcno"),ofUInt32 pkt.pcno],
      .array [.string (str "payload")],.string pkt.payload] := rfl
  rw [hs]
  constructor
  · apply writes_array
    simp only [List.forall_mem_cons,List.not_mem_nil,false_implies,implies_true,and_true]
    refine ⟨writes_array ?_,writes_array ?_,writes_string _⟩
    · simpa using ⟨writes_string _,writes_uint32 _⟩
    · simpa using writes_string _
  · have hp : (str "pcno").length = 4 := rfl
    have hl : (str "payload").length = 7 := rfl
    simp [StringsFit,ElementsFit,ofUInt32,hp,hl]

/-- Every packet can be written, and only a payload can be too long to be read back. -/
theorem PktMsg.fields_spec (pkt : PktMsg) : ∀ kv ∈ pkt.fields, 0 ∉ kv.1 ∧ Writes kv.2 ∧
    ((pkt.type = .Piece → pkt.piece.payload.length + 1 < 2 ^ 31) → StringsFit kv.2) := by
  have hlt := pkt.type.code.toNat_lt
  have htype : Writes (.number_integer pkt.type.code.toNat) := writes_integer (by omega) (by omega)
  have hlast : ∀ kv ∈ [(str "type",Json.number_integer pkt.type.code.toNat)], 0 ∉ kv.1 ∧
      Writes kv.2 ∧ ((pkt.type = .Piece → pkt.piece.payload.length + 1 < 2 ^ 31) →
        StringsFit kv.2) := by
    intro kv hkv
    rw [List.mem_singleton.mp hkv]
    exact ⟨show 0 ∉ str "type" by decide,htype,fun _ => trivial⟩
  unfold PktMsg.fields
  cases ht : pkt.type with
  | Handshake =>
    rw [ht] at hlast
    have hv := pkt.hshake.writes
    exact List.forall_mem_cons.mpr ⟨⟨show 0 ∉ str "hshake" by decide,hv.1,fun _ => hv.2⟩,hlast⟩
  | Have =>
    rw [ht] at hlast
    have hv := pkt.have.writes
    exact List.forall_mem_cons.mpr ⟨⟨show 0 ∉ str "have" by decide,hv.1,fun _ => hv.2⟩,hlast⟩
  | BitField =>
    rw [ht] at hlast
    have hv := pkt.bfield.writes
    exact List.forall_mem_cons.mpr ⟨⟨show 0 ∉ str "bfield" by decide,hv.1,fun _ => hv.2⟩,hlast⟩
  | Request =>
    rw [ht] at hlast
    have hv := pkt.req.writes
    exact List.forall_mem_cons.mpr ⟨⟨show 0 ∉ str "req" by decide,hv.1,fun _ => hv.2⟩,hlast⟩
  | Piece =>
    rw [ht] at hlast
    have hv := pkt.piece.writes
    exact List.forall_mem_cons.mpr ⟨⟨show 0 ∉ str "piece" by decide,hv.1,fun h => hv.2.mpr (h rfl)⟩,hlast⟩
  | _ =>
    rw [ht] at hlast
    exact hlast

theorem PktMsg.encode_ok (pkt : PktMsg) : ∃ doc, pkt.encode = .ok doc := by
  rw [encode,toJson_eq]
  exact toBson_ok (fun kv hkv => ⟨(pkt.fields_spec kv hkv).1,(pkt.fields_spec kv hkv).2.1⟩)

theorem PktMsg.toJson_fits {pkt : PktMsg}
    (h : pkt.type = .Piece → pkt.piece.payload.length + 1 < 2 ^ 31) : StringsFit pkt.toJson := by
  rw [toJson_eq,StringsFit,fieldsFit_iff]
  exact fun kv hkv => (pkt.fields_spec kv hkv).2.2 h

/-- Decoding what was encoded is `fromJson` after `toJson`. -/
theorem PktMsg.decode_encode {pkt : PktMsg} {doc : Bytes} (hdoc : pkt.encode = .ok doc)
    (h : pkt.type = .Piece → pkt.piece.payload.length + 1 < 2 ^ 31) :
    decode doc = fromJson pkt.toJson := by
  rw [decode,fromBson_toBson (toJson_fits h) hdoc,Outcome.ok_bind,fromJson_signedForm]

/-- A piece is never decoded: its payload stands in an array, or cannot be read at all. -/
theorem PktMsg.decode_piece {pkt : PktMsg} {doc : Bytes} (hdoc : pkt.encode = .ok doc) (ht : pkt.type = .Piece)
    (hlen : pkt.piece.payload.length + 1 ≤ 2 ^ 32) : decode doc = .error .uncaught := by
  by_cases hfit : pkt.piece.payload.length + 1 < 2 ^ 31
  · rw [decode_encode hdoc (fun _ => hfit),fromJson_toJson_piece ht]
  · have hlong : Overlong pkt.piece.toJson := by
      have hbefore : ElementsFit [.array [.string (str "pcno"),ofUInt32 pkt.piece.pcno],
          .array [.string (str "payload")]] := by
        simp [StringsFit,ElementsFit,ofUInt32,str]
      exact overlong_array hbefore (overlong_string (by omega) hlen) []
    rw [encode,toJson_eq,fields,ht] at hdoc
    rw [decode,fromBson_overlong hlong hdoc,Outcome.error_bind]

/-- A payload that has been decoded was a string of the document. -/
theorem PktMsg.decode_payload_lt {doc : Bytes} {pkt : PktMsg} (h : decode doc = .ok pkt)
    (ht : pkt.type = .Piece) : pkt.piece.payload.length + 1 < 2 ^ 31 := by
  obtain ⟨j,hj,h⟩ := Outcome.bind_eq_ok.mp h
  have hfit := fromBson_fits hj
  obtain ⟨jt,_,h⟩ := Outcome.bind_eq_ok.mp h
  obtain ⟨type,_,h⟩ := Outcome.bind_eq_ok.mp h
  cases type with
  | Piece =>
    simp only at h
    obtain ⟨jp,hjp,h⟩ := Outcome.bind_eq_ok.mp h
    obtain ⟨piece,hp,h⟩ := Outcome.bind_eq_ok.mp h
    cases h
    obtain ⟨jn,_,hp⟩ := Outcome.bind_eq_ok.mp hp
    obtain ⟨pcno,_,hp⟩ := Outcome.bind_eq_ok.mp hp
    obtain ⟨js,hjs,hp⟩ := Outcome.bind_eq_ok.mp hp
    obtain ⟨payload,hs,hp⟩ := Outcome.bind_eq_ok.mp hp
    cases hp
    have hjsfit := at_fits (at_fits hfit hjp) hjs
    cases js with
    | string s =>
      cases hs
      exact hjsfit
    | _ => cases hs
  | _ =>
    simp only [Outcome.bind_eq_ok,Outcome.pure_eq] at h
    first
      | (cases h; cases ht)
      | (obtain ⟨_,_,_,_,h⟩ := h; cases h; cases ht)

/-- The packet is encoded, decoded, and comes out with what it carries. -/
def PktMsg.RoundTrips (pkt : PktMsg) : Prop :=
  ∃ doc pkt', pkt.encode = .ok doc ∧ decode doc = .ok pkt' ∧ pkt.Carries pkt'

/-- The codec gives back exactly the packets that are no pieces. -/
theorem PktMsg.roundTrips_iff (pkt : PktMsg) : pkt.RoundTrips ↔ pkt.type ≠ .Piece := by
  constructor
  · rintro ⟨doc,pkt',hdoc,hdec,htype,hcarry⟩ ht
    have hpiece : pkt'.piece = pkt.piece := by simpa only [ht] using hcarry
    have hlt := decode_payload_lt hdec (htype.trans ht)
    rw [hpiece] at hlt
    rw [decode_encode hdoc (fun _ => hlt),fromJson_toJson_piece ht] at hdec
    cases hdec
  · intro ht
    obtain ⟨doc,hdoc⟩ := pkt.encode_ok
    obtain ⟨pkt',hpkt,hcarry⟩ := fromJson_toJson ht
    exact ⟨doc,pkt',hdoc,(decode_encode hdoc (fun h => absurd h ht)).trans hpkt,hcarry⟩

theorem PktMsg.piece_not_roundTrips :
    ¬ ({ type := .Piece, piece := ⟨3,str "data"⟩ } : PktMsg).RoundTrips := by
  rintro ⟨doc,pkt',hdoc,hdec,_⟩
  rw [decode_encode hdoc (fun _ => by decide),fromJson_toJson_piece rfl] at hdec
  cases hdec

end BTRx
