import BTRx.Handler.Turn

/-! # What registers a neighbour

Only a Handshake changes which neighbours the table knows and which one the connection
points to. Everything else a turn does writes to the objects alone.
-/
namespace BTRx
open ByteSet Memory LittleEndian

/-- The same neighbours, whose objects may differ. -/
structure NbrMap.SameTable (m m' : NbrMap) : Prop where
  peers : m'.peers = m.peers
  peerinfo : m'.peerinfo = m.peerinfo
  npeers : m'.npeers = m.npeers
  size : m'.nbrs.length = m.nbrs.length

theorem NbrMap.SameTable.refl (m : NbrMap) : m.SameTable m := ⟨rfl,rfl,rfl,rfl⟩

theorem NbrMap.SameTable.trans {l m n : NbrMap} (h : l.SameTable m) (h' : m.SameTable n) :
    l.SameTable n :=
  ⟨h'.peers.trans h.peers,h'.peerinfo.trans h.peerinfo,h'.npeers.trans h.npeers,h'.size.trans h.size⟩

theorem NbrMap.earmark_sameTable {m m' : NbrMap} {own : Bfield} {peer diff diff' : List UInt8}
    {ret : Bool} (h : m.earmark own peer diff = .ok (ret,diff',m')) : m.SameTable m' := by
  obtain ⟨d,_,h⟩ := Outcome.bind_eq_ok.mp h
  obtain ⟨e,_,h⟩ := Outcome.bind_eq_ok.mp h
  cases h
  exact ⟨rfl,rfl,rfl,rfl⟩

namespace Session
variable {s s' : Session} {pkt : PktMsg} {junk : Bytes}

/-- A step that registers no one. -/
structure KeepsTable (s s' : Session) : Prop where
  table : s.nmap.SameTable s'.nmap
  nbr : s'.conn.nbr = s.conn.nbr

theorem KeepsTable.refl (s : Session) : s.KeepsTable s := ⟨.refl _,rfl⟩

theorem KeepsTable.setNbr (h : s.KeepsTable s') (k : ℕ) (nbr : Nbr) :
    s.KeepsTable (s'.setNbr k nbr) := by
  obtain ⟨⟨hp,hi,hn,hs⟩,hc⟩ := h
  exact ⟨⟨hp,hi,hn,by simpa [Session.setNbr] using hs⟩,hc⟩

theorem answerBitField_keepsTable (s : Session) (interested : Bool) :
    s.KeepsTable (s.answerBitField interested) := by
  obtain ⟨_,hm,hc,_⟩ := answerBitField_spec interested s
  exact ⟨by rw [hm]; exact .refl _,by rw [hc]⟩

theorem dispatch_keepsTable (ht : pkt.type ≠ .Handshake) (h : s.dispatch pkt junk = .ok s') :
    s.KeepsTable s' := by
  have hkeep := h
  unfold dispatch at h
  cases hty : pkt.type with
  | Handshake => exact absurd hty ht
  | Choke =>
    simp only [hty] at h
    cases h
    exact ⟨.refl _,rfl⟩
  | UnChoke =>
    simp only [hty] at h
    cases h
    exact ⟨.refl _,rfl⟩
  | Interested =>
    simp only [hty] at h
    obtain ⟨_,_,h⟩ := Outcome.bind_eq_ok.mp h
    cases h
    exact (KeepsTable.refl s).setNbr _ _
  | NotInterested =>
    simp only [hty] at h
    obtain ⟨_,_,h⟩ := Outcome.bind_eq_ok.mp h
    cases h
    exact (KeepsTable.refl s).setNbr _ _
  | Have =>
    simp only [hty] at h
    cases h
    unfold handleHave
    split <;> exact ⟨.refl _,rfl⟩
  | BitField =>
    rw [dispatch_bitField s hty,recvBitField_eq] at hkeep
    obtain ⟨⟨ret,diff,nmap⟩,he,hkeep⟩ := Outcome.bind_eq_ok.mp hkeep
    cases hkeep
    obtain ⟨_,hm,hc,_⟩ := answerBitField_spec ret
      { s with
        conn := { s.conn with bfieldPeer := pkt.bfield.bfield, diff }
        nmap
        out := s.out ++ if s.conn.client
          then [{ type := .BitField, bfield := ⟨s.ost.bfield.bfield⟩ }] else [] }
    exact ⟨by rw [hm]; exact NbrMap.earmark_sameTable he,by rw [hc]⟩
  | Request =>
    obtain ⟨k,nbr,_,s₁,h₁,rfl⟩ := dispatch_request hty hkeep
    obtain ⟨_,_,_,hconn,hnmap,_⟩ := answerRequest_sent h₁
    have hset := (KeepsTable.refl s).setNbr k { nbr with requests := nbr.requests + 1 }
    have h₂ : s.KeepsTable s₁ := ⟨by rw [hnmap]; exact hset.table,by rw [hconn]; exact hset.nbr⟩
    split
    · exact ⟨h₂.table,h₂.nbr⟩
    · exact h₂
  | Piece =>
    simp only [hty] at h
    obtain ⟨_,_,_,_,rfl,_⟩ := handlePiece_eq_ok h
    exact ⟨.refl _,rfl⟩
  | Unnamed c hc =>
    simp only [hty] at h
    cases h

theorem handle_keepsTable (ht : pkt.type ≠ .Handshake) (h : s.handle pkt junk = .ok s') :
    s.KeepsTable s' := by
  obtain ⟨s₁,h₁,h⟩ := Outcome.bind_eq_ok.mp h
  obtain ⟨new,rfl,_⟩ := chokeStatusCheck_eq_ok h₁
  obtain ⟨⟨hp,hi,hn,hs⟩,hc⟩ := dispatch_keepsTable ht h
  exact ⟨⟨hp,hi,hn,hs⟩,hc⟩

/-- The id that a Handshake registers. -/
def handshakeId (pkt : PktMsg) : ℤ := toInt pkt.hshake.peerid.toNat

theorem handle_handshake (ht : pkt.type = .Handshake) (h : s.handle pkt junk = .ok s') :
    s'.nmap = (s.nmap.registerCli (handshakeId pkt)).2 ∧ s'.conn.nbr = some s.nmap.nbrs.length := by
  obtain ⟨s₁,h₁,h⟩ := Outcome.bind_eq_ok.mp h
  obtain ⟨new,rfl,_⟩ := chokeStatusCheck_eq_ok h₁
  simp only [dispatch,ht] at h
  cases h
  split <;> exact ⟨rfl,rfl⟩

theorem timeout_keepsTable (s : Session) : s.KeepsTable s.timeout.1 := by
  simp only [timeout]
  split <;> exact ⟨.refl _,rfl⟩

end Session
end BTRx
