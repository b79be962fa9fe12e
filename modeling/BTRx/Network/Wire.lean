import BTRx.Network.Conservation
import BTRx.Node.Store

/-! # Nodes joined by byte streams

`Network` hands whole packets over. Here a connection carries the documents that `snd` writes,
and `cli_handler` cuts them out again with a peek and a read that may both fall short. Every run
on streams is a run on packets in which no Piece is handed over, so no node ever gets a piece.
-/
namespace BTRx
open ByteSet Memory LittleEndian Transition

namespace Session
variable {s : Session} {ph : Phase} {pkt pkt' : PktMsg} {junk : Bytes}

/-- The switch only looks at the field that the type selects. -/
theorem dispatch_carries (h : pkt.Carries pkt') (s : Session) :
    s.dispatch pkt' junk = s.dispatch pkt junk := by
  obtain ⟨ht,hf⟩ := h
  unfold dispatch
  rw [ht]
  cases hty : pkt.type with
  | Handshake =>
    rw [hty] at hf
    simp only at hf ⊢
    rw [hf]
  | Have =>
    rw [hty] at hf
    simp only [handleHave] at hf ⊢
    rw [hf]
  | BitField =>
    rw [hty] at hf
    simp only [recvBitField] at hf ⊢
    rw [hf]
  | Request =>
    rw [hty] at hf
    simp only at hf ⊢
    rw [hf]
  | Piece =>
    rw [hty] at hf
    simp only [handlePiece] at hf ⊢
    rw [hf]
  | Choke | UnChoke | Interested | NotInterested | Unnamed => rfl

theorem event_carries (h : pkt.Carries pkt') : s.event ph (.packet pkt' junk) = s.event ph (.packet pkt junk) := by
  have hrecv : s.receive pkt' junk = s.receive pkt junk := by
    unfold receive handle
    rw [h.1]
    by_cases hb : pkt.type = .BitField
    · have hf := h.2
      rw [hb] at hf
      simp only at hf
      simp only [if_pos hb,recvBitField,hf]
    · simp only [if_neg hb,dispatch_carries h]
  cases ph with
  | ready => simp only [event,hrecv]
  | start | diffing | closed => rfl
  | marking todo ret => cases todo <;> rfl

end Session

/-! ## Documents in a stream -/

/-- The document and the payload have lengths that their prefixes can show. -/
def PktMsg.Small (pkt : PktMsg) : Prop :=
  (∀ doc, pkt.encode = .ok doc → doc.length < 2 ^ 32) ∧ pkt.piece.payload.length + 1 < 2 ^ 31

/-- The packets are the documents that make up a stream. -/
inductive Written : List PktMsg → Bytes → Prop
  | nil : Written [] []
  | cons {pkt : PktMsg} {doc : Bytes} {pkts : List PktMsg} {stream : Bytes} (hdoc : pkt.encode = .ok doc)
    (hs : pkt.Small) (rest : Written pkts stream) : Written (pkt :: pkts) (doc ++ stream)

/-- The top of the loop: what a thread finds in front of its stream, and what is left of it. The
stream comes from the `snd` of another node, which writes no doubles. -/
def Event.receive (cut : Cut) (junk stream : Bytes) : Except Fault (Event × Bytes) := do
  match ← rcvSz (some (recv 4 cut.peek stream)) with
  | none => return (.eof,stream)
  | some sz =>
    if sz = 0 then return (.timeout,stream)
    let got := recv sz cut.read stream
    let cmdr ← rcv (some got) sz
    let bson ← determined cmdr
    let pkt ← PktMsg.decode bson
    return (.packet pkt junk,stream.drop got.length)

/-- The packets of a step, written in order. -/
def sndAll (stream : Bytes) (out : List PktMsg) : Except Fault Bytes :=
  out.foldlM (fun stream pkt => snd stream pkt.toJson) stream

section
variable {pkt : PktMsg} {pkts out : List PktMsg} {doc stream stream' rest left junk : Bytes} {cut : Cut} {ev : Event}

theorem Bson.length_prefix {j : Json} (h : toBson j = .ok doc) (hlt : doc.length < 2 ^ 32) :
    ofLE (doc.take 4) = doc.length := by
  obtain ⟨kvs,body,_,_,rfl⟩ := toBson_eq_ok h
  have hlen : (enclose body).length = body.length + 5 := by
    simp only [enclose,List.length_append,List.length_cons,List.length_nil,le_length]
    omega
  rw [hlen] at hlt ⊢
  rw [enclose,List.append_assoc,List.take_left' (le_length 4 _),ofLE_le]
  exact Nat.mod_eq_of_lt (by omega)

/-- In front of a document a thread sees a timeout or takes the packet, and no thread takes a Piece. -/
theorem Event.receive_cases (hdoc : pkt.encode = .ok doc) (hs : pkt.Small)
    (h : Event.receive cut junk (doc ++ rest) = .ok (ev,left)) : ev = .timeout ∧ left = doc ++ rest ∨
      pkt.type ≠ .Piece ∧ left = rest ∧ ∃ pkt', pkt.Carries pkt' ∧ ev = .packet pkt' junk := by
  have h5 := Bson.five_le_toBson hdoc
  have hpre := Bson.length_prefix hdoc (hs.1 doc hdoc)
  by_cases hpeek : cut.peeked doc.length = 0
  · simp only [receive,rcvSz_peek cut h5 hpre rest,Outcome.ok_bind,hpeek,if_true] at h
    cases h
    exact Or.inl ⟨rfl,rfl⟩
  · right
    simp only [receive,rcvSz_peek cut h5 hpre rest,Outcome.ok_bind,if_neg hpeek] at h
    obtain ⟨cmdr,hcmdr,h⟩ := Outcome.bind_eq_ok.mp h
    obtain ⟨bson,hbson,h⟩ := Outcome.bind_eq_ok.mp h
    obtain ⟨pkt',hpkt,h⟩ := Outcome.bind_eq_ok.mp h
    cases h
    obtain ⟨j,hj,hpkt⟩ := Outcome.bind_eq_ok.mp hpkt
    have hiter := @iteration_read cut doc pkt.toJson hdoc hpre rest 0 [] hpeek
    simp only [hcmdr,hbson,hj,Outcome.ok_bind,Outcome.pure_eq] at hiter
    rcases iteration_cases hdoc hpre hiter with ⟨hz,_⟩ | ⟨j',_,_,hfit⟩
    · exact absurd hz hpeek
    · obtain ⟨_,_,hr⟩ := hfit (PktMsg.toJson_fits fun _ => hs.2)
      simp only [Receiver.mk.injEq,List.nil_append,List.cons.injEq,and_true,true_and] at hr
      obtain ⟨hleft,rfl⟩ := hr
      rw [PktMsg.fromJson_signedForm] at hpkt
      have ht : pkt.type ≠ .Piece := by
        intro ht
        rw [PktMsg.fromJson_toJson_piece ht] at hpkt
        cases hpkt
      obtain ⟨pkt'',hpkt'',hcarries⟩ := PktMsg.fromJson_toJson ht
      cases hpkt''.symm.trans hpkt
      exact ⟨ht,hleft,pkt',hcarries,rfl⟩

theorem Written.append (h : Written pkts stream) (h' : Written out stream') :
    Written (pkts ++ out) (stream ++ stream') := by
  induction h with
  | nil => exact h'
  | cons hdoc hs _ ih =>
    rw [List.append_assoc]
    exact .cons hdoc hs ih

theorem Written.sndAll (h : Written pkts stream) (hs : ∀ m ∈ out, m.Small)
    (hout : sndAll stream out = .ok stream') : Written (pkts ++ out) stream' := by
  induction out generalizing pkts stream with
  | nil =>
    cases hout
    rwa [List.append_nil]
  | cons m out ih =>
    obtain ⟨hm,hs⟩ := List.forall_mem_cons.mp hs
    unfold BTRx.sndAll at hout
    rw [List.foldlM_cons] at hout
    obtain ⟨next,hnext,hout⟩ := Outcome.bind_eq_ok.mp hout
    obtain ⟨doc,hdoc,hnext⟩ := Outcome.bind_eq_ok.mp hnext
    cases hnext
    have hone : Written [m] (doc ++ []) := .cons hdoc hm .nil
    rw [List.append_nil] at hone
    rw [← List.singleton_append,← List.append_assoc]
    exact ih (h.append hone) hs hout

end

/-! ## The network on streams -/

structure Wire where
  nodes : ℕ → Node End
  stream : End → Bytes

inductive WireAct
  | event (e : End) (ev : Event)
  | receive (e : End) (cut : Cut) (junk : Bytes)
  | choke (i k : ℕ) (choked : Bool)

namespace Wire
variable (host : End → ℕ)

/-- A step of the thread at `e`, after which `rest` is left of what its peer wrote. -/
def stepAt (w : Wire) (e : End) (ev : Event) (rest : Bytes) : Except Refusal (List PktMsg × Wire) := do
  let (out,n) ← (w.nodes (host e)).exec (.thread e ev)
  let sent ← (sndAll (w.stream e) out).mapError .fault
  return (out,{
    nodes := Function.update w.nodes (host e) n
    stream := Function.update (Function.update w.stream e.peer rest) e sent })

/-- On an empty stream a thread waits. -/
def exec (w : Wire) : WireAct → Except Refusal (List PktMsg × Wire)
  | .event e ev => if ev.Local e then w.stepAt host e ev (w.stream e.peer) else .error .disabled
  | .receive e cut junk =>
    if w.stream e.peer = [] then .error .disabled
    else do
      let (ev,rest) ← (Event.receive cut junk (w.stream e.peer)).mapError .fault
      w.stepAt host e ev rest
  | .choke i k choked =>
    .ok ([],{ w with nodes := Function.update w.nodes i ((w.nodes i).leaveChoked k choked) })

/-- The same nodes, and the packets that make up the streams. -/
structure Matches (w : Wire) (net : Network) : Prop where
  nodes : net.nodes = w.nodes
  stream : ∀ e, Written (net.chan e) (w.stream e)

/-- A step on streams and its step on packets, which hands over no Piece. -/
structure Follows (x : Wire × WireAct × List PktMsg) (y : Network × NetAct × List PktMsg) : Prop where
  nodes : y.1.nodes = x.1.nodes
  output : y.2.2 = x.2.2
  taken : ∀ t, Network.turn y = some t → ∀ m ∈ t.taken, m.type ≠ .Piece

variable {host} {w₀ w w' : Wire} {net : Network} {e : End} {ev : Event} {out : List PktMsg} {rest : Bytes}
variable {hist : List (Wire × WireAct × List PktMsg)} {a : WireAct}

/-- The step of a thread on both networks. -/
theorem Matches.stepAt (h : w.Matches net) (ev' : Event) (hs : ∀ m ∈ out, m.Small) (hx : w.stepAt host e ev rest = .ok (out,w'))
    {left : List PktMsg} (hleft : Written left rest)
    (hev : ∀ s : Session, s.event ((w.nodes (host e)).threads e).phase ev =
      s.event ((w.nodes (host e)).threads e).phase ev') :
    ∃ net', net.stepAt host e ev' left = .ok (out,net') ∧ w'.Matches net' := by
  obtain ⟨⟨out',n⟩,hn,hx⟩ := Outcome.bind_eq_ok.mp hx
  obtain ⟨sent,hsent,hx⟩ := Outcome.bind_eq_ok.mp hx
  cases hx
  have hn' : (net.nodes (host e)).exec (.thread e ev') = .ok (out,n) := by
    rw [h.nodes,← hn,Node.exec,Node.exec,hev]
  have hwritten := (h.stream e).sndAll hs (Outcome.mapError_eq_ok.mp hsent)
  refine ⟨{
    nodes := Function.update net.nodes (host e) n
    chan := Function.update (Function.update net.chan e.peer left) e (net.chan e ++ out) },?_,?_,fun d => ?_⟩
  · rw [Network.stepAt,hn']
    rfl
  · simp only [h.nodes]
  · by_cases hd : d = e
    · subst hd
      simpa using hwritten
    · by_cases hp : d = e.peer
      · subst hp
        simpa using hleft
      · simpa [hd,hp] using h.stream d

theorem Matches.step (h : w.Matches net) (hs : ∀ m ∈ out, m.Small) (hx : w.exec host a = .ok (out,w')) :
    ∃ b net', net.exec host b = .ok (out,net') ∧ w'.Matches net' ∧ Follows (w,a,out) (net,b,out) := by
  cases a with
  | choke i k choked =>
    cases hx
    refine ⟨.choke i k choked,_,rfl,⟨?_,h.stream⟩,h.nodes,rfl,nofun⟩
    simp only [h.nodes]
  | event e ev =>
    simp only [exec] at hx
    split at hx
    · rename_i hl
      obtain ⟨net',hnet,hm⟩ := h.stepAt ev hs hx (h.stream e.peer) fun _ => rfl
      refine ⟨.event e ev,net',by simp only [Network.exec,if_pos hl,hnet],hm,h.nodes,rfl,?_⟩
      rintro t ht m hmem
      cases ht
      cases hmem
    · cases hx
  | receive e cut junk =>
    simp only [exec] at hx
    split at hx
    · cases hx
    · rename_i hne
      obtain ⟨⟨ev,rest⟩,hr,hx⟩ := Outcome.bind_eq_ok.mp hx
      replace hr := Outcome.mapError_eq_ok.mp hr
      have hstream := h.stream e.peer
      generalize w.stream e.peer = stream at hstream hne hr
      cases hc : net.chan e.peer with
      | nil =>
        rw [hc] at hstream
        cases hstream
        exact absurd rfl hne
      | cons pkt pkts =>
        rw [hc] at hstream
        have hall := hstream
        cases hstream with
        | cons hdoc hsmall hrest =>
          rcases Event.receive_cases hdoc hsmall hr with ⟨rfl,rfl⟩ | ⟨ht,rfl,pkt',hcarries,rfl⟩
          · obtain ⟨net',hnet,hm⟩ := h.stepAt .timeout hs hx hall fun _ => rfl
            refine ⟨.event e .timeout,net',?_,hm,h.nodes,rfl,?_⟩
            · have hl : Event.Local e .timeout = true := rfl
              simp only [Network.exec,if_pos hl,hc,hnet]
            · rintro t ht m hmem
              cases ht
              cases hmem
          · obtain ⟨net',hnet,hm⟩ := h.stepAt (.packet pkt junk) hs hx hrest fun s => Session.event_carries hcarries
            refine ⟨.deliver e junk,net',?_,hm,h.nodes,rfl,?_⟩
            · simp only [Network.exec,hc,hnet]
            · rintro t htt m hmem
              simp only [Network.turn,hc] at htt
              cases htt
              rw [List.mem_singleton.mp hmem]
              exact ht

theorem matches_empty (h₀ : ∀ e, w₀.stream e = []) : w₀.Matches ⟨w₀.nodes,fun _ => []⟩ := by
  refine ⟨rfl,fun e => ?_⟩
  rw [h₀ e]
  exact .nil

theorem Matches.run {net₀ : Network} (h : w₀.Matches net₀) (run : Run (ExecStep (exec host)) w₀ hist w)
    (hsmall : ∀ l ∈ hist, ∀ m ∈ l.2.2, m.Small) :
    ∃ phist net, Run (ExecStep (Network.exec host)) net₀ phist net ∧ w.Matches net ∧
      List.Forall₂ Follows hist phist := by
  refine run.follow (A := fun l => ∀ m ∈ l.2.2, m.Small) h hsmall ?_
  rintro w ⟨a,out⟩ w' net hm hs hx
  obtain ⟨b,net',hnet,hm',hf⟩ := hm.step hs hx
  exact ⟨(b,out),net',hnet,hm',hf⟩

/-- Every run on streams is followed on packets. -/
theorem packet_run (h₀ : ∀ e, w₀.stream e = []) (run : Run (ExecStep (exec host)) w₀ hist w)
    (hsmall : ∀ l ∈ hist, ∀ m ∈ l.2.2, m.Small) :
    ∃ phist net, Run (ExecStep (Network.exec host)) ⟨w₀.nodes,fun _ => []⟩ phist net ∧ w.Matches net ∧
      List.Forall₂ Follows hist phist :=
  (matches_empty h₀).run run hsmall

end Wire

/-- Where no Piece is handed over, no bitfield and no file changes. -/
theorem Network.keeps_files {host : End → ℕ} {net₀ net : Network} {hist : List (Network × NetAct × List PktMsg)}
    (run : Run (ExecStep (Network.exec host)) net₀ hist net)
    (hno : ∀ l ∈ hist, ∀ t, Network.turn l = some t → ∀ m ∈ t.taken, m.type ≠ .Piece) (i : ℕ) :
    (net.nodes i).ost.bfield = (net₀.nodes i).ost.bfield ∧
      (net.nodes i).ost.cache.file.data = (net₀.nodes i).ost.cache.file.data := by
  induction run with
  | refl => exact ⟨rfl,rfl⟩
  | @tail hist net net' l run last ih =>
    obtain ⟨a,out⟩ := l
    obtain ⟨hl,hhist⟩ := List.forall_mem_cons.mp hno
    obtain ⟨hb,hd⟩ := ih hhist
    rcases exec_played last with ⟨j,k,choked,rfl,rfl⟩ | ⟨e,ev,r,hp⟩
    · simp only [(choke_frame j k choked net i).1]
      exact ⟨hb,hd⟩
    · by_cases hi : i = host e
      · subst hi
        obtain ⟨hb',hd'⟩ := Session.event_keeps_file hp.event (hl _ hp.turn)
        rw [hp.own]
        exact ⟨hb'.trans hb,hd'.trans hd⟩
      · rw [hp.away hi]
        exact ⟨hb,hd⟩

namespace Wire
variable {host : End → ℕ} {w₀ w : Wire} {hist : List (Wire × WireAct × List PktMsg)}

/-- As the codec stands, no node ever gets a piece: in every run, bitfields and files stay as
they were. -/
theorem nothing_transferred (h₀ : ∀ e, w₀.stream e = []) (run : Run (ExecStep (exec host)) w₀ hist w)
    (hsmall : ∀ l ∈ hist, ∀ m ∈ l.2.2, m.Small) (i : ℕ) :
    (w.nodes i).ost.bfield = (w₀.nodes i).ost.bfield ∧
      (w.nodes i).ost.cache.file.data = (w₀.nodes i).ost.cache.file.data := by
  obtain ⟨phist,net,prun,hm,hf⟩ := (matches_empty h₀).run run hsmall
  rw [← hm.nodes]
  refine Network.keeps_files prun ?_ i
  exact ((List.forall₂_and_left _ _).mp (hf.flip.imp fun _ _ h => ⟨h.taken,h⟩)).1

/-- The two nodes of `two`, and cuts that spare every document. -/
def ofTwo : Wire := ⟨Network.two.nodes,fun _ => []⟩

def whole : NetAct → WireAct
  | .event e ev => .event e ev
  | .deliver e junk => .receive e ⟨4,1000⟩ junk
  | .choke i k choked => .choke i k choked

def isSmall (m : PktMsg) : Bool :=
  m.encode.toOption.any (·.length < 2 ^ 32) && m.piece.payload.length + 1 < 2 ^ 31

theorem small_of_isSmall {m : PktMsg} (h : isSmall m = true) : m.Small := by
  rw [isSmall,Bool.and_eq_true,decide_eq_true_eq] at h
  refine ⟨fun doc hdoc => ?_,h.2⟩
  rw [hdoc] at h
  exact of_decide_eq_true h.1

/-- The Request is taken, and its piece is in the stream behind the answers to the opening. -/
theorem serving : ∃ hist w, Run (ExecStep (exec Network.hostOfTwo)) ofTwo hist w ∧
    (∃ l ∈ hist, ∃ m ∈ l.2.2, m.type = .Piece) ∧ ∀ l ∈ hist, ∀ m ∈ l.2.2, m.Small := by
  obtain ⟨hist,w,run,h⟩ := @exists_run _ _ _ _ (exec Network.hostOfTwo) ofTwo
    ((Network.opening ++ [NetAct.deliver ⟨0,true⟩ []]).map whole)
    (fun hist _ => (hist.any fun l => l.2.2.any fun m => m.type == .Piece) &&
      hist.all fun l => l.2.2.all isSmall) (by decide +kernel)
  simp only [Bool.and_eq_true,List.any_eq_true,List.all_eq_true,beq_iff_eq] at h
  exact ⟨hist,w,run,h.1,fun l hl m hm => small_of_isSmall (h.2 l hl m hm)⟩

theorem packet_run_two : ∃ hist w, Run (ExecStep (exec Network.hostOfTwo)) ofTwo hist w ∧
    (∃ l ∈ hist, ∃ m ∈ l.2.2, m.type = .Piece) ∧
    ∃ phist net, Run (ExecStep (Network.exec Network.hostOfTwo)) ⟨ofTwo.nodes,fun _ => []⟩ phist net ∧
      w.Matches net ∧ List.Forall₂ Follows hist phist := by
  obtain ⟨hist,w,run,hpiece,hsmall⟩ := serving
  exact ⟨hist,w,run,hpiece,packet_run (fun _ => rfl) run hsmall⟩

theorem nothing_transferred_two : ∃ hist w, Run (ExecStep (exec Network.hostOfTwo)) ofTwo hist w ∧
    (∃ l ∈ hist, ∃ m ∈ l.2.2, m.type = .Piece) ∧ (w.nodes 1).ost.bfield = ⟨[0]⟩ ∧
      (w.nodes 1).ost.cache.file.data = [some 7] := by
  obtain ⟨hist,w,run,hpiece,hsmall⟩ := serving
  exact ⟨hist,w,run,hpiece,nothing_transferred (fun _ => rfl) run hsmall 1⟩

end Wire
end BTRx
