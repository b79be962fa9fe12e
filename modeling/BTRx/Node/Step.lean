import BTRx.Node.Node

/-! # What one step of a thread can do

`Moved` lists the steps of a thread with everything they change; every invariant of a
node and of a network is derived from it. The stages of a BitField, run without a break,
are the turn of `dispatch`.
-/
namespace BTRx
open ByteSet Memory LittleEndian Transition
namespace Session

/-- A step outside the BitField case that stores no piece. -/
structure Kept (s s' : Session) : Prop where
  same : SameConn s s'
  marks : s'.nmap.bfield = s.nmap.bfield
  diff : s'.conn.diff = s.conn.diff
  peer : s'.conn.bfieldPeer = s.conn.bfieldPeer
  reqs : s'.conn.reqs = s.conn.reqs
  held : s'.ost.bfield = s.ost.bfield
  sent : ∃ new, s'.out = s.out ++ new ∧ AsksOnly s.conn.reqs new

theorem Turned.kept {pkt : PktMsg} {s s' : Session} (h : Turned pkt s s') (ht : pkt.type ≠ .Piece) :
    Kept s s' :=
  ⟨h.same,h.marks,h.diff,h.peer,by rw [h.reqs,if_neg ht],h.held ht,h.sent⟩

/-- A handshake packet or the own bitfield, at most one of the latter. -/
def Announces (own : List UInt8) (b : Bool) (new : List PktMsg) : Prop :=
  (∀ m ∈ new, m.type ≠ .Request ∧ (m.type = .BitField → m.bfield.bfield = own)) ∧
    new.countP (fun m => m.type = .BitField) = if b then 1 else 0

/-- The steps of a thread. -/
inductive Moved (s : Session) : Phase → Event → Session → Phase → Prop
  | made {self peer : ℤ} {new : List PktMsg}
      (hnew : Announces s.ost.bfield.bfield (decide (peer ≠ 0)) new) :
      Moved s .start (.makeThread self peer)
        { s with conn := Conn.new self peer, out := s.out ++ new } .ready
  | kept {ev : Event} {s' : Session} {ph' : Phase}
      (hev : ∀ pkt junk, ev = .packet pkt junk → pkt.type ≠ .BitField ∧ pkt.type ≠ .Piece)
      (hph : ph' = .ready ∨ ph' = .closed) (h : Kept s s') : Moved s .ready ev s' ph'
  | stored {pkt : PktMsg} {junk : Bytes} {s' : Session} (ht : pkt.type = .Piece)
      (h : Turned pkt s s') : Moved s .ready (.packet pkt junk) s' .ready
  | received {pkt : PktMsg} {junk : Bytes} {new : List PktMsg} (ht : pkt.type = .BitField)
      (hnew : Announces s.ost.bfield.bfield s.conn.client new) :
      Moved s .ready (.packet pkt junk)
        { s with conn := { s.conn with bfieldPeer := pkt.bfield.bfield }, out := s.out ++ new } .diffing
  | compared (hle : s.ost.bfield.bfield.length ≤ s.conn.bfieldPeer.length) {diff : List UInt8}
      (hdiff : diff = newBits s.ost.bfield.bfield s.conn.bfieldPeer s.conn.diff) :
      Moved s .diffing .resume { s with conn := { s.conn with diff } }
        (.marking (positions diff.length) false)
  | marked {ij : ℕ × ℕ} {todo : List (ℕ × ℕ)} {ret : Bool} {e : Earmarking}
      (he : Earmarking.turn ⟨s.nmap.bfield,s.conn.diff,ret⟩ ij = .ok e) :
      Moved s (.marking (ij :: todo) ret) .resume
        { s with nmap := { s.nmap with bfield := e.bfield }, conn := { s.conn with diff := e.diff } }
        (.marking todo e.ret)
  | answered {ret : Bool} : Moved s (.marking [] ret) .resume (s.answerBitField ret) .ready

theorem announces_nil (own : List UInt8) : Announces own false [] := ⟨nofun,rfl⟩

/-- Leaving the loop changes one flag of the neighbour. -/
theorem hangUp_eq_ok {s s' : Session} {ph' : Phase} (h : s.hangUp = .ok (s',ph')) :
    ph' = .closed ∧ ∃ k nbr, s' = s.setNbr k nbr := by
  obtain ⟨t,ht,h⟩ := Outcome.bind_eq_ok.mp h
  cases h
  obtain ⟨⟨k,nbr⟩,_,ht⟩ := Outcome.bind_eq_ok.mp ht
  cases ht
  exact ⟨rfl,k,_,rfl⟩

theorem Kept.setNbr {s s' : Session} (h : Kept s s') (k : ℕ) (nbr : Nbr) : Kept s (s'.setNbr k nbr) :=
  ⟨⟨h.same.client,h.same.chokedPeer,h.same.peeridSelf,h.same.shape⟩,h.marks,h.diff,h.peer,h.reqs,
    h.held,h.sent⟩

theorem kept_refl (s : Session) : Kept s s :=
  ⟨⟨rfl,rfl,rfl,rfl,rfl,rfl⟩,rfl,rfl,rfl,rfl,rfl,[],by simp,asksOnly_nil _⟩

/-- A timeout repeats all requests; every second one announces pieces. -/
theorem timeout_kept (s : Session) : Kept s s.timeout.1 := by
  have hreq := asksOnly_requests s.conn.reqs
  simp only [timeout]
  split
  · refine ⟨⟨rfl,rfl,rfl,rfl,rfl,rfl⟩,rfl,rfl,rfl,rfl,rfl,_,List.append_assoc _ _ _,hreq.append ?_⟩
    intro m hm
    obtain ⟨q,_,rfl⟩ := List.mem_map.mp hm
    exact ⟨nofun,nofun⟩
  · exact ⟨⟨rfl,rfl,rfl,rfl,rfl,rfl⟩,rfl,rfl,rfl,rfl,rfl,_,rfl,hreq⟩

theorem receive_moved {pkt : PktMsg} {junk : Bytes} {s s' : Session} {ph' : Phase}
    (h : s.receive pkt junk = .ok (s',ph')) : Moved s .ready (.packet pkt junk) s' ph' := by
  unfold receive at h
  by_cases hb : pkt.type = .BitField
  · rw [if_pos hb] at h
    obtain ⟨s₁,h₁,h⟩ := Outcome.bind_eq_ok.mp h
    cases h
    obtain ⟨pre,rfl,hpre⟩ := chokeStatusCheck_eq_ok h₁
    rw [recvBitField_eq]
    simp only [List.append_assoc]
    refine Moved.received hb ⟨?_,?_⟩
    · intro m hm
      rcases List.mem_append.mp hm with hm | hm
      · rcases hpre with rfl | rfl | rfl
        · cases hm
        · rw [List.mem_singleton.mp hm]
          exact ⟨nofun,nofun⟩
        · rw [List.mem_singleton.mp hm]
          exact ⟨nofun,nofun⟩
      · split at hm
        · rw [List.mem_singleton.mp hm]
          exact ⟨nofun,fun _ => rfl⟩
        · cases hm
    · have hzero : pre.countP (fun m => m.type = .BitField) = 0 := by
        rcases hpre with rfl | rfl | rfl <;> rfl
      rw [List.countP_append,hzero,Nat.zero_add]
      split <;> rfl
  · rw [if_neg hb] at h
    obtain ⟨s₁,h₁,h⟩ := Outcome.bind_eq_ok.mp h
    cases h
    have hturn := handle_turned hb h₁
    by_cases hp : pkt.type = .Piece
    · exact Moved.stored hp hturn
    · refine Moved.kept ?_ (Or.inl rfl) (hturn.kept hp)
      intro pkt' junk' heq
      cases heq
      exact ⟨hb,hp⟩

/-- The inversion of `event`. -/
theorem event_moved {s s' : Session} {ph ph' : Phase} {ev : Event}
    (h : s.event ph ev = .ok (s',ph')) : Moved s ph ev s' ph' := by
  unfold event at h
  split at h
  · rename_i self peer
    cases h
    unfold start
    by_cases hp : peer = 0
    · have hc : (Conn.new self peer).client = true := decide_eq_true hp
      simp only [hc,if_true]
      have hnew : Announces s.ost.bfield.bfield (decide (peer ≠ 0)) [] := by
        rw [decide_eq_false (not_not.mpr hp)]
        exact announces_nil _
      have hmade := @Moved.made s self peer _ hnew
      rwa [List.append_nil] at hmade
    · have hc : (Conn.new self peer).client = false := decide_eq_false hp
      simp only [hc,Bool.false_eq_true,if_false]
      obtain ⟨t,ht⟩ : ∃ t : Session, t = { s with conn := Conn.new self peer } := ⟨_,rfl⟩
      obtain ⟨hs,hty,hsend⟩ : ∃ hs : PktMsg, hs.type = .Handshake ∧ t.sendHandshake = t.send hs :=
        ⟨_,rfl,rfl⟩
      have hnew : Announces s.ost.bfield.bfield (decide (peer ≠ 0))
          [hs,{ type := .BitField, bfield := ⟨s.ost.bfield.bfield⟩ }] := by
        rw [decide_eq_true hp]
        refine ⟨?_,by simp [hty]⟩
        intro m hm
        rcases List.mem_cons.mp hm with rfl | hm
        · rw [hty]
          exact ⟨by decide,by simp⟩
        · rw [List.mem_singleton.mp hm]
          exact ⟨by simp,fun _ => rfl⟩
      have hmade := @Moved.made s self peer _ hnew
      rw [← ht,hsend]
      rw [ht]
      simpa [send,sendBfield,Bfield.clone] using hmade
  · rename_i pkt junk
    exact receive_moved (Outcome.mapError_eq_ok.mp h)
  · rw [Outcome.mapError_eq_ok,expire] at h
    have hev : ∀ pkt junk, Event.timeout = .packet pkt junk → pkt.type ≠ .BitField ∧ pkt.type ≠ .Piece := by
      intro pkt junk heq
      cases heq
    split at h
    · cases h
      exact Moved.kept hev (Or.inl rfl) (timeout_kept s)
    · obtain ⟨rfl,k,nbr,rfl⟩ := hangUp_eq_ok h
      exact Moved.kept hev (Or.inr rfl) ((timeout_kept s).setNbr k nbr)
  · obtain ⟨rfl,k,nbr,rfl⟩ := hangUp_eq_ok (Outcome.mapError_eq_ok.mp h)
    refine Moved.kept (fun pkt junk heq => ?_) (Or.inr rfl) ((kept_refl s).setNbr k nbr)
    cases heq
  · obtain ⟨diff,hdiff,h⟩ := Outcome.bind_eq_ok.mp (Outcome.mapError_eq_ok.mp h)
    cases h
    obtain ⟨hle,rfl⟩ := Bfield.diff_eq_ok.mp hdiff
    exact Moved.compared hle rfl
  · obtain ⟨e,he,h⟩ := Outcome.bind_eq_ok.mp (Outcome.mapError_eq_ok.mp h)
    cases h
    exact Moved.marked he
  · cases h
    exact Moved.answered
  · cases h

/-! ## The stages of a BitField without a break -/

/-- A step of a thread that no packet starts. -/
def Resumes (a b : Session × Phase) : Prop := a.1.event a.2 .resume = .ok b

theorem earmark_staged {todo : List (ℕ × ℕ)} {e e' : Earmarking} (s : Session)
    (h : todo.foldlM Earmarking.turn e = .ok e') : Relation.ReflTransGen Resumes
      ({ s with nmap := { s.nmap with bfield := e.bfield }, conn := { s.conn with diff := e.diff } },
        .marking todo e.ret)
      ({ s with nmap := { s.nmap with bfield := e'.bfield }, conn := { s.conn with diff := e'.diff } },
        .marking [] e'.ret) := by
  induction todo generalizing e with
  | nil =>
    cases h
    exact .refl
  | cons ij todo ih =>
    rw [List.foldlM_cons] at h
    obtain ⟨e₁,h₁,h⟩ := Outcome.bind_eq_ok.mp h
    refine Relation.ReflTransGen.head ?_ (ih h)
    simp only [Resumes,event,mark,h₁,Outcome.ok_bind,Outcome.pure_eq]
    rfl

/-- A whole turn on a BitField is the run of its stages. -/
theorem handle_staged {pkt : PktMsg} {junk : Bytes} {s s' : Session} (ht : pkt.type = .BitField)
    (h : s.handle pkt junk = .ok s') : ∃ s₁, s.receive pkt junk = .ok (s₁,.diffing) ∧
      Relation.ReflTransGen Resumes (s₁,.diffing) (s',.ready) := by
  obtain ⟨s₀,h₀,h⟩ := Outcome.bind_eq_ok.mp h
  refine ⟨s₀.recvBitField pkt,by simp only [receive,if_pos ht,h₀,Outcome.ok_bind,Outcome.pure_eq],?_⟩
  rw [dispatch_bitField s₀ ht] at h
  obtain ⟨⟨ret,diff',nmap⟩,he,h⟩ := Outcome.bind_eq_ok.mp h
  cases h
  obtain ⟨diff,hdiff,he⟩ := Outcome.bind_eq_ok.mp he
  obtain ⟨e,hloop,he⟩ := Outcome.bind_eq_ok.mp he
  cases he
  have hstart : Resumes (s₀.recvBitField pkt,.diffing)
      ({ s₀.recvBitField pkt with conn := { (s₀.recvBitField pkt).conn with diff } },
        .marking (positions diff.length) false) := by
    rw [recvBitField_eq]
    simp only [Resumes,event,compare,hdiff,Outcome.ok_bind,Outcome.pure_eq]
    rfl
  have hmarks := earmark_staged (s₀.recvBitField pkt) hloop
  rw [recvBitField_eq] at hstart hmarks ⊢
  exact Relation.ReflTransGen.head hstart (hmarks.tail rfl)

end Session
end BTRx
