import BTRx.Node.Output
import BTRx.Node.Table

/-! # What a step of a thread does to the neighbours

A thread counts requests, records interest and leaves. It never writes `choked`, it never
takes `done` back, and a neighbour it registers is not choked.
-/
namespace BTRx
open ByteSet Memory LittleEndian Transition

/-- Each object is still there, as choked as it was and done if it was. -/
def NbrMap.Serves (m m' : NbrMap) : Prop := ∀ (k : ℕ) (nbr : Nbr), m.nbrs[k]? = some nbr →
  ∃ nbr' : Nbr, m'.nbrs[k]? = some nbr' ∧ nbr'.choked = nbr.choked ∧ (nbr.done = true → nbr'.done = true)

theorem NbrMap.Serves.of_eq {m m' : NbrMap} (h : m'.nbrs = m.nbrs) : m.Serves m' := by
  intro k nbr hk
  exact ⟨nbr,by rw [h,hk],rfl,id⟩

theorem NbrMap.Serves.set {m : NbrMap} {k : ℕ} {nbr nbr' : Nbr} (h : m.nbrs[k]? = some nbr)
    (hc : nbr'.choked = nbr.choked) (hd : nbr.done = true → nbr'.done = true) :
    m.Serves { m with nbrs := m.nbrs.set k nbr' } := by
  intro i x hi
  by_cases hik : i = k
  · subst hik
    obtain rfl : nbr = x := Option.some.inj (h.symm.trans hi)
    exact ⟨nbr',by simp [(List.getElem?_eq_some_iff.mp h).1],hc,hd⟩
  · exact ⟨x,by rw [← hi]; exact List.getElem?_set_ne (Ne.symm hik),rfl,id⟩

theorem NbrMap.serves_registerCli (m : NbrMap) (peerid : ℤ) : m.Serves (m.registerCli peerid).2 := by
  intro k nbr hk
  refine ⟨nbr,?_,rfl,id⟩
  rw [registerCli,List.getElem?_append_left (List.getElem?_eq_some_iff.mp hk).1,hk]

namespace Session
variable {s s' : Session} {ph ph' : Phase} {ev : Event} {pkt : PktMsg} {junk : Bytes}

theorem nbrAt_getElem? {k : ℕ} {nbr : Nbr} (h : s.nbrAt = .ok (k,nbr)) : s.nmap.nbrs[k]? = some nbr := by
  unfold nbrAt at h
  split at h
  · cases h
  · split at h
    · rename_i hk
      cases h
      exact hk
    · cases h

theorem request_serves (ht : pkt.type = .Request) (h : s.dispatch pkt junk = .ok s') :
    s.nmap.Serves s'.nmap := by
  obtain ⟨k,nbr,hn,s₁,h₁,rfl⟩ := dispatch_request ht h
  obtain ⟨_,_,_,_,hnmap,_⟩ := answerRequest_sent h₁
  have hset := @NbrMap.Serves.set s.nmap k nbr { nbr with requests := nbr.requests + 1 }
    (nbrAt_getElem? hn) rfl id
  split
  · simp only [sendRequests]
    rwa [hnmap]
  · rwa [hnmap]

theorem dispatch_serves (hb : pkt.type ≠ .BitField) (h : s.dispatch pkt junk = .ok s') :
    s.nmap.Serves s'.nmap := by
  have hkeep := h
  unfold dispatch at h
  cases hty : pkt.type with
  | Handshake =>
    simp only [hty] at h
    cases h
    by_cases hc : s.conn.client = true
    · simp only [if_pos hc]
      exact NbrMap.serves_registerCli _ _
    · simp only [if_neg hc]
      exact NbrMap.serves_registerCli _ _
  | Choke | UnChoke =>
    simp only [hty] at h
    cases h
    exact .of_eq rfl
  | Interested | NotInterested =>
    simp only [hty] at h
    obtain ⟨⟨k,nbr⟩,hn,h⟩ := Outcome.bind_eq_ok.mp h
    cases h
    exact .set (nbrAt_getElem? hn) rfl id
  | Have =>
    simp only [hty] at h
    cases h
    unfold handleHave
    split <;> exact .of_eq rfl
  | BitField => exact absurd hty hb
  | Request => exact request_serves hty hkeep
  | Piece =>
    simp only [hty] at h
    obtain ⟨_,_,_,_,rfl,_⟩ := handlePiece_eq_ok h
    exact .of_eq rfl
  | Unnamed c hc =>
    simp only [hty] at h
    cases h

theorem leave_serves (h : s.leave = .ok s') : s.nmap.Serves s'.nmap := by
  obtain ⟨⟨k,nbr⟩,hn,h⟩ := Outcome.bind_eq_ok.mp h
  cases h
  exact .set (nbrAt_getElem? hn) rfl fun _ => rfl

theorem hangUp_serves (h : s.hangUp = .ok (s',ph')) : s.nmap.Serves s'.nmap := by
  obtain ⟨t,ht,h⟩ := Outcome.bind_eq_ok.mp h
  cases h
  exact leave_serves ht

theorem timeout_nmap (s : Session) : s.timeout.1.nmap = s.nmap := by
  simp only [timeout]
  split <;> rfl

theorem event_serves (h : s.event ph ev = .ok (s',ph')) : s.nmap.Serves s'.nmap := by
  unfold event at h
  split at h
  · cases h
    unfold start
    split <;> exact .of_eq rfl
  · rw [Outcome.mapError_eq_ok,receive] at h
    split at h
    · obtain ⟨t,ht,h⟩ := Outcome.bind_eq_ok.mp h
      cases h
      obtain ⟨new,rfl,_⟩ := chokeStatusCheck_eq_ok ht
      rw [recvBitField_eq]
      exact .of_eq rfl
    · rename_i hb
      obtain ⟨t,ht,h⟩ := Outcome.bind_eq_ok.mp h
      cases h
      obtain ⟨u,hu,ht⟩ := Outcome.bind_eq_ok.mp ht
      obtain ⟨new,rfl,_⟩ := chokeStatusCheck_eq_ok hu
      have hserves := dispatch_serves hb ht
      exact hserves
  · rw [Outcome.mapError_eq_ok,expire] at h
    split at h
    · cases h
      exact .of_eq (by rw [timeout_nmap])
    · have hleave := hangUp_serves h
      rwa [timeout_nmap] at hleave
  · exact hangUp_serves (Outcome.mapError_eq_ok.mp h)
  · obtain ⟨diff,_,h⟩ := Outcome.bind_eq_ok.mp (Outcome.mapError_eq_ok.mp h)
    cases h
    exact .of_eq rfl
  · obtain ⟨e,_,h⟩ := Outcome.bind_eq_ok.mp (Outcome.mapError_eq_ok.mp h)
    cases h
    exact .of_eq rfl
  · cases h
    rw [(answerBitField_spec _ s).2.1]
    exact .of_eq rfl
  · cases h

/-- A step of a thread chokes no one. -/
theorem event_unchoked (h : s.event ph ev = .ok (s',ph')) (hc : ∀ nbr ∈ s.nmap.nbrs, nbr.choked = false) :
    ∀ nbr ∈ s'.nmap.nbrs, nbr.choked = false := by
  intro nbr hmem
  obtain ⟨k,hk⟩ := List.mem_iff_getElem?.mp hmem
  have hserves := event_serves h
  rcases (event_table h).2 with ⟨id,_,hm,_⟩ | ⟨_,hm,_⟩
  · rw [hm] at hmem
    rcases List.mem_append.mp hmem with hmem | hmem
    · exact hc nbr hmem
    · rw [List.mem_singleton.mp hmem]
  · have hlt : k < s.nmap.nbrs.length := by
      rw [← hm.size]
      exact (List.getElem?_eq_some_iff.mp hk).1
    obtain ⟨nbr',hnbr',hchoked,_⟩ := hserves k _ (List.getElem?_eq_getElem hlt)
    obtain rfl : nbr' = nbr := Option.some.inj (hnbr'.symm.trans hk)
    rw [hchoked]
    exact hc _ (List.getElem_mem hlt)

/-! ## The counter -/

/-- What a step adds to the handshakes that were handled. -/
theorem handshake_taken (ev : Event) : (ev.taken.filterMap PktMsg.greeting).length =
    if (handshake ev).isSome then 1 else 0 := by
  cases ev with
  | packet pkt junk =>
    by_cases ht : pkt.type = .Handshake
    · simp [Event.taken,handshake,PktMsg.greeting,ht]
    · simp [Event.taken,handshake,PktMsg.greeting,ht]
  | _ => rfl

/-- Each registration takes one off the counter. -/
theorem event_npeers (h : s.event ph ev = .ok (s',ph')) :
    s'.nmap.npeers + UInt32.ofNat (if (handshake ev).isSome then 1 else 0) = s.nmap.npeers := by
  rcases (event_table h).2 with ⟨id,hev,hm,_⟩ | ⟨hev,hm,_⟩
  · rw [hev,hm]
    exact sub_add_cancel _ _
  · rw [hev,hm.npeers]
    exact add_zero _

end Session

namespace Node
variable {ι : Type} [DecidableEq ι] {n₀ n : Node ι} {hist : NodeHist ι}

omit [DecidableEq ι] in
theorem handshakes_thread (n : Node ι) (c : ι) (ev : Event) (out : List PktMsg) :
    (handshakes ((n,.thread c ev,out) :: hist)).length =
      (handshakes hist).length + if (Session.handshake ev).isSome then 1 else 0 := by
  cases hev : Session.handshake ev <;> simp [handshakes,hev]

/-- The counter with the registrations of a run. -/
theorem npeers_counts (run : Run (ExecStep Node.exec) n₀ hist n) :
    n.nmap.npeers + UInt32.ofNat (handshakes hist).length = n₀.nmap.npeers := by
  refine run.always (P := fun hist n =>
    n.nmap.npeers + UInt32.ofNat (handshakes hist).length = n₀.nmap.npeers) (add_zero _) ?_
  rintro hist n ⟨a,out⟩ n' h hx
  cases a with
  | choke k choked =>
    cases hx
    exact h
  | thread c ev =>
    obtain ⟨r,hr,_,rfl⟩ := exec_event hx
    rw [handshakes_thread,UInt32.ofNat_add,← h,← add_assoc,add_right_comm]
    exact congrArg (· + UInt32.ofNat (handshakes hist).length) (Session.event_npeers hr)

end Node
end BTRx
