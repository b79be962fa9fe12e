import BTRx.Handler.Loop
import BTRx.Handler.Registration

/-! # When the handler has a neighbour

`nbr` is a null pointer until a Handshake arrives. `choke_status_check` looks before it
reads, but the cases Interested, NotInterested and Request do not, and neither does the
exit path, which a peer reaches by closing the connection.
-/
namespace BTRx
open Memory ByteSet LittleEndian Transition

/-- The cases of the switch that write through `nbr`. -/
def MessageType.UsesNbr (t : MessageType) : Prop := t = .Interested ∨ t = .NotInterested ∨ t = .Request

def Incoming.IsHandshake (i : Incoming) : Prop := i.TakesPacket ∧ i.pkt.type = .Handshake

def Visit.UsesNbr (v : Visit) : Prop :=
  match v.act with
  | .recv i => i.TakesPacket ∧ i.pkt.type.UsesNbr
  | .finish => True

namespace Session
variable {s s' : Session} {pkt : PktMsg} {junk : Bytes}

theorem nbrAt_none (h : s.conn.nbr = none) : s.nbrAt = .error .nullPointer := by
  rw [nbrAt,h]

theorem nbrAt_null (h : s.nbrAt = .error .nullPointer) : s.conn.nbr = none := by
  unfold nbrAt at h
  split at h
  · assumption
  · split at h <;> cases h

theorem chokeStatusCheck_none (h : s.conn.nbr = none) (b : Bool) : s.chokeStatusCheck b = .ok s := by
  simp [chokeStatusCheck,h]

theorem sendPiece_error {pcno : UInt32} {f : Fault} (h : s.sendPiece pcno junk = .error f) :
    f = .exit ∨ f.Bounds ∨ f.Stale := by
  unfold sendPiece at h
  rcases Outcome.bind_eq_error.mp h with h | ⟨⟨r,buf,ost⟩,_,h⟩
  · exact Or.inr (ObjStore.getPiece_error h)
  · by_cases hr : r = 0
    · simp only [hr,if_true,Outcome.throw_eq,Outcome.error_bind] at h
      cases h
      exact Or.inl rfl
    · simp only [if_neg hr] at h
      cases h

/-- A null pointer is met in three cases of the switch. -/
theorem dispatch_none (h : s.conn.nbr = none) (ht : pkt.type.UsesNbr) :
    s.dispatch pkt junk = .error .nullPointer := by
  unfold dispatch
  rcases ht with ht | ht | ht <;> simp only [ht,nbrAt_none h,Outcome.error_bind]

theorem dispatch_null (h : s.dispatch pkt junk = .error .nullPointer) :
    s.conn.nbr = none ∧ pkt.type.UsesNbr := by
  have hkeep := h
  unfold dispatch at h
  cases hty : pkt.type with
  | Handshake =>
    simp only [hty] at h
    cases h
  | Choke =>
    simp only [hty] at h
    cases h
  | UnChoke =>
    simp only [hty] at h
    cases h
  | Interested =>
    simp only [hty] at h
    rcases Outcome.bind_eq_error.mp h with h | ⟨_,_,h⟩
    · exact ⟨nbrAt_null h,Or.inl rfl⟩
    · cases h
  | NotInterested =>
    simp only [hty] at h
    rcases Outcome.bind_eq_error.mp h with h | ⟨_,_,h⟩
    · exact ⟨nbrAt_null h,Or.inr (Or.inl rfl)⟩
    · cases h
  | Have =>
    simp only [hty] at h
    cases h
  | BitField =>
    rw [dispatch_bitField s hty] at hkeep
    by_cases hfit : s.nmap.EarmarkFits s.ost.bfield.bfield pkt.bfield.bfield s.conn.diff
    · obtain ⟨_,_,_,he,_⟩ := NbrMap.earmark_of_fits hfit
      rw [he] at hkeep
      cases hkeep
    · rw [NbrMap.earmark_of_not_fits hfit] at hkeep
      cases hkeep
  | Request =>
    simp only [hty] at h
    rcases Outcome.bind_eq_error.mp h with h | ⟨r,_,h⟩
    · exact ⟨nbrAt_null h,Or.inr (Or.inr rfl)⟩
    · rcases Outcome.bind_eq_error.mp h with h | ⟨_,_,h⟩
      · unfold answerRequest at h
        split at h
        · rcases sendPiece_error h with h | h | h
          · cases h
          · exact absurd rfl h.ne_null
          · exact absurd rfl h.ne_null
        · cases h
      · cases h
  | Piece =>
    simp only [hty,handlePiece] at h
    rcases Outcome.bind_eq_error.mp h with h | ⟨_,_,h⟩
    · rcases ObjStore.addPiece_error h with h | h | h
      · cases h
      · exact absurd rfl h.ne_null
      · exact absurd rfl h.ne_null
    · cases h
  | Unnamed c hc =>
    simp only [hty] at h
    cases h

theorem handle_null_iff (hs : s.NbrLive ∨ s.conn.nbr = none) :
    s.handle pkt junk = .error .nullPointer ↔ s.conn.nbr = none ∧ pkt.type.UsesNbr := by
  constructor
  · intro h
    rcases hs with hs | hn
    · obtain ⟨new,hc⟩ := hs.chokeStatusCheck s.conn.chokedPeer
      rw [handle,hc,Outcome.ok_bind] at h
      exact (dispatch_null h :)
    · rw [handle,chokeStatusCheck_none hn,Outcome.ok_bind] at h
      exact dispatch_null h
  · rintro ⟨hn,ht⟩
    rw [handle,chokeStatusCheck_none hn,Outcome.ok_bind]
    exact dispatch_none hn ht

theorem KeepsTable.nbrLive (h : s.KeepsTable s') (hs : s.NbrLive) : s'.NbrLive := by
  obtain ⟨k,hk,hlt⟩ := hs
  exact ⟨k,by rw [h.nbr,hk],by rw [h.table.size]; exact hlt⟩

/-- The exit path marks the neighbour. -/
theorem leave_live (hs : s.NbrLive) : ∃ s' k nbr, s.leave = .ok s' ∧ s'.conn.nbr = some k ∧
    s'.nmap.nbrs[k]? = some nbr ∧ nbr.done = true := by
  obtain ⟨k,hk,hlt⟩ := hs
  have hn : s.nbrAt = .ok (k,s.nmap.nbrs[k]) := by simp [nbrAt,hk,hlt]
  refine ⟨s.setNbr k { s.nmap.nbrs[k] with done := true },k,{ s.nmap.nbrs[k] with done := true },
    ?_,hk,?_,rfl⟩
  · rw [leave,hn]
    rfl
  · simp [setNbr,hlt]

end Session

namespace Handler

/-- A Handshake has been received. -/
def Handshaken (hist : Hist) : Prop := ∃ e ∈ hist, ∃ i, e.2.act = .recv i ∧ i.IsHandshake

/-- The step meets no null pointer, and the exit path of a registered connection marks the
neighbour and closes the socket. -/
structure NbrSafe (hist : Hist) (h : Handler) (v : Visit) : Prop where
  used : h.exec v ≠ .error .nullPointer
  closes : v.act = .finish → Handshaken hist → ∃ h' k nbr, h.exec v = .ok h' ∧ h'.mode = .closed ∧
    h'.session.conn.nbr = some k ∧ h'.session.nmap.nbrs[k]? = some nbr ∧ nbr.done = true

/-- The pointer is set exactly when a Handshake has arrived. -/
structure NbrInv (hist : Hist) (s : Session) : Prop where
  live : Handshaken hist → s.NbrLive
  unset : ¬ Handshaken hist → s.conn.nbr = none

theorem NbrInv.either {hist : Hist} {s : Session} (h : NbrInv hist s) :
    s.NbrLive ∨ s.conn.nbr = none := by
  by_cases hh : Handshaken hist
  · exact Or.inl (h.live hh)
  · exact Or.inr (h.unset hh)

theorem NbrInv.none_iff {hist : Hist} {s : Session} (h : NbrInv hist s) :
    s.conn.nbr = none ↔ ¬ Handshaken hist := by
  constructor
  · intro hn hh
    obtain ⟨k,hk,_⟩ := h.live hh
    rw [hk] at hn
    cases hn
  · exact h.unset

/-- What other threads do keeps a neighbour that is there. -/
theorem NbrInv.shared {hist : Hist} {h : Handler} (hinv : NbrInv hist h.session) {v : Visit}
    (hv : h.Enabled v) : NbrInv hist (h.shared v) := by
  refine ⟨fun hh => ?_,fun hh => hinv.unset hh⟩
  obtain ⟨k,hk,hlt⟩ := hinv.live hh
  exact ⟨k,hk,hlt.trans_le hv.grown⟩

/-- A step that is no Handshake. -/
theorem NbrInv.keeps {hist : Hist} {e : Handler × Visit} {s s' : Session} (hinv : NbrInv hist s)
    (hno : ∀ i, e.2.act = .recv i → ¬ i.IsHandshake) (hk : s.KeepsTable s') :
    NbrInv (e :: hist) s' := by
  have hiff : Handshaken (e :: hist) ↔ Handshaken hist := by
    constructor
    · rintro ⟨e',he',i,hact,hi⟩
      rcases List.mem_cons.mp he' with rfl | he'
      · exact absurd hi (hno i hact)
      · exact ⟨e',he',i,hact,hi⟩
    · rintro ⟨e',he',hi⟩
      exact ⟨e',List.mem_cons_of_mem _ he',hi⟩
  exact ⟨fun hh => hk.nbrLive (hinv.live (hiff.mp hh)),
    fun hh => hk.nbr.trans (hinv.unset fun hh' => hh (hiff.mpr hh'))⟩

variable {ost : ObjStore} {nmap : NbrMap} {peeridSelf peeridPeer : ℤ} {hist : Hist} {h h' : Handler}

theorem nbrInv_step (hinv : NbrInv hist h.session) {v : Visit} (hs : Step h v h') :
    NbrInv ((h,v) :: hist) h'.session := by
  obtain ⟨hv,hx⟩ := hs
  have hsh := hinv.shared hv
  unfold exec at hx
  cases hact : v.act with
  | finish =>
    simp only [hact] at hx
    obtain ⟨s,hl,hx⟩ := Outcome.bind_eq_ok.mp hx
    cases hx
    obtain ⟨_,_,hl⟩ := Outcome.bind_eq_ok.mp hl
    cases hl
    refine hsh.keeps (fun i hi => ?_) ((Session.KeepsTable.refl _).setNbr _ _)
    rw [hact] at hi
    cases hi
  | recv i =>
    simp only [hact] at hx
    obtain ⟨⟨s,more⟩,hit,hx⟩ := Outcome.bind_eq_ok.mp hx
    cases hx
    have hno : ¬ i.IsHandshake → ∀ j, v.act = .recv j → ¬ j.IsHandshake := by
      intro hi j hj
      rw [hact] at hj
      cases hj
      exact hi
    have hsize : ¬ i.TakesPacket → ¬ i.IsHandshake := fun hp hi => hp hi.1
    rcases (h.shared v).iteration_cases i with ht | hp | ⟨hsz,he⟩ | ⟨f,_,he⟩
    · rw [Session.iteration_timeout ht] at hit
      have hs : (h.shared v).timeout.1 = s := congrArg Prod.fst (Except.ok.inj hit)
      have hnp : ¬ i.TakesPacket := by
        rintro ⟨sz,hsz,hne⟩
        rw [Incoming.TakesTimeout,hsz] at ht
        cases ht
        exact hne rfl
      exact hsh.keeps (hno (hsize hnp)) (hs ▸ Session.timeout_keepsTable _)
    · rw [Session.iteration_packet hp] at hit
      cases hh : (h.shared v).handle i.pkt i.junk with
      | error f =>
        rw [hh] at hit
        cases hit
      | ok t =>
        rw [hh] at hit
        cases hit
        by_cases hty : i.pkt.type = .Handshake
        · obtain ⟨hm,hn⟩ := Session.handle_handshake hty hh
          have hhs : Handshaken ((h,v) :: hist) :=
            ⟨(h,v),List.mem_cons_self,i,hact,hp,hty⟩
          refine ⟨fun _ => ⟨_,hn,?_⟩,fun hc => absurd hhs hc⟩
          simp [hm,NbrMap.registerCli]
        · exact hsh.keeps (hno fun hi => hty hi.2) (Session.handle_keepsTable hty hh)
    · rw [he] at hit
      cases hit
      have hnp : ¬ i.TakesPacket := by
        rintro ⟨sz,hsz',_⟩
        rw [hsz] at hsz'
        cases hsz'
      exact hsh.keeps (hno (hsize hnp)) (.refl _)
    · rw [he] at hit
      cases hit

theorem run_nbrInv (run : Run Step (new ost nmap peeridSelf peeridPeer) hist h) :
    NbrInv hist h.session := by
  refine run.always (P := fun hist h => NbrInv hist h.session) ?_
    fun hist h v h' hinv hs => nbrInv_step hinv hs
  refine ⟨?_,fun _ => ?_⟩
  · rintro ⟨e,he,_⟩
    cases he
  · simp only [new,Session.start]
    split <;> rfl

/-- Which steps meet a null pointer. -/
theorem exec_null_iff (hinv : NbrInv hist h.session) {v : Visit} (hv : h.Enabled v) :
    h.exec v = .error .nullPointer ↔ ¬ Handshaken hist ∧ v.UsesNbr := by
  have hsh := hinv.shared hv
  rw [← hsh.none_iff]
  unfold exec Visit.UsesNbr
  cases hact : v.act with
  | finish =>
    simp only [and_true]
    constructor
    · intro hx
      rcases Outcome.bind_eq_error.mp hx with hx | ⟨_,_,hx⟩
      · rcases Outcome.bind_eq_error.mp hx with hx | ⟨_,_,hx⟩
        · exact Session.nbrAt_null hx
        · cases hx
      · cases hx
    · intro hn
      simp only [Session.leave,Session.nbrAt_none hn,Outcome.error_bind]
  | recv i =>
    simp only
    rcases (h.shared v).iteration_cases i with ht | hp | ⟨hsz,he⟩ | ⟨f,hsz,he⟩
    · rw [Session.iteration_timeout ht]
      constructor
      · exact nofun
      · rintro ⟨_,⟨sz,hsz,hne⟩,_⟩
        rw [Incoming.TakesTimeout,hsz] at ht
        cases ht
        exact absurd rfl hne
    · rw [Session.iteration_packet hp]
      have hnull : (h.shared v).handle i.pkt i.junk = .error .nullPointer ↔ _ :=
        Session.handle_null_iff hsh.either
      cases hh : (h.shared v).handle i.pkt i.junk with
      | ok t =>
        rw [hh] at hnull
        constructor
        · exact nofun
        · rintro ⟨hn,_,hu⟩
          exact nomatch hnull.mpr ⟨hn,hu⟩
      | error f =>
        rw [hh] at hnull
        constructor
        · intro hx
          cases hx
          obtain ⟨hn,hu⟩ := hnull.mp rfl
          exact ⟨hn,hp,hu⟩
        · rintro ⟨hn,_,hu⟩
          cases hnull.mpr ⟨hn,hu⟩
          rfl
    · rw [he]
      constructor
      · exact nofun
      · rintro ⟨_,⟨sz,hsz',_⟩,_⟩
        rw [hsz] at hsz'
        cases hsz'
    · rw [he]
      constructor
      · intro hx
        cases hx
        cases hsz' : i.peek with
        | none =>
          rw [hsz',rcvSz_none] at hsz
          cases hsz
        | some got =>
          rw [hsz',rcvSz] at hsz
          split at hsz
          · cases hsz
          · split at hsz <;> cases hsz
      · rintro ⟨_,⟨sz,hsz',_⟩,_⟩
        rw [hsz] at hsz'
        cases hsz'

/-- In every run a step is safe exactly when a Handshake has arrived before, or the step
has no use for the neighbour. -/
theorem nbrSafe_iff (run : Run Step (new ost nmap peeridSelf peeridPeer) hist h) {v : Visit}
    (hv : h.Enabled v) : NbrSafe hist h v ↔ Handshaken hist ∨ ¬ v.UsesNbr := by
  have hinv := run_nbrInv run
  have hnull := exec_null_iff hinv hv
  constructor
  · intro hsafe
    by_contra hno
    rw [not_or,not_not] at hno
    exact hsafe.used (hnull.mpr hno)
  · intro hok
    refine ⟨fun hx => ?_,fun hact hh => ?_⟩
    · obtain ⟨hno,hu⟩ := hnull.mp hx
      rcases hok with hh | hnu
      · exact hno hh
      · exact hnu hu
    · obtain ⟨s',k,nbr,hl,hk,hn,hd⟩ := Session.leave_live ((hinv.shared hv).live hh)
      refine ⟨⟨s',.closed⟩,k,nbr,?_,rfl,hk,hn,hd⟩
      simp only [exec,hact,hl,Outcome.ok_bind,Outcome.pure_eq]

def demoHandshake : PktMsg where
  type := .Handshake
  hshake := ⟨Vector.replicate 19 0,Vector.replicate 10 0,2⟩

/-- A Handshake, the end of the stream and the exit path. -/
theorem nbrSafe_handshake : ∃ hist h, Run Step demo hist h ∧ h.mode = .left ∧
    NbrSafe hist h (h.alone .finish) := by
  have hp : Incoming.Peeked ⟨some [99,0,0,0],demoHandshake,[]⟩ := by
    rintro got ⟨⟩
    decide
  have heof : Incoming.Peeked ⟨some [],demoHandshake,[]⟩ := by
    rintro got ⟨⟩
    decide
  have run₁ := Run.refl.tail (show Step demo _ _ from ⟨enabled_recv rfl hp,rfl⟩)
  have run₂ := run₁.tail (a := alone _ (.recv ⟨some [],demoHandshake,[]⟩))
    ⟨enabled_recv rfl heof,rfl⟩
  refine ⟨_,_,run₂,rfl,(nbrSafe_iff run₂ (enabled_finish rfl)).mpr (Or.inl ?_)⟩
  exact ⟨_,List.mem_cons_of_mem _ List.mem_cons_self,_,rfl,⟨99,rfl,by decide⟩,rfl⟩

/-- A peer that closes the connection before its Handshake. -/
theorem nbr_not_safe : ∃ hist h v, Run Step demo hist h ∧ h.Enabled v ∧ ¬ NbrSafe hist h v := by
  have heof : Incoming.Peeked ⟨some [],demoHandshake,[]⟩ := by
    rintro got ⟨⟩
    decide
  have run := Run.refl.tail (show Step demo _ _ from ⟨enabled_recv rfl heof,rfl⟩)
  exact ⟨_,_,alone _ .finish,run,enabled_finish rfl,fun h => h.used rfl⟩

end Handler

end BTRx
