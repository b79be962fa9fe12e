import BTRx.Handler.Loop
import BTRx.Node.Output
import BTRx.ObjStore.Contents

/-! # The store of a node under its handlers

A step of a handler calls the store at most once: `add_piece` on a Piece, `get_piece` on a
Request. A run of the node is therefore a run of its store, in the order in which the handlers
come to it, and what the store has of a piece is what the first Piece packet brought, on
whichever connection it came.
-/
namespace BTRx
open ByteSet Memory LittleEndian Transition

namespace Session
variable {s s' : Session} {ph ph' : Phase} {ev : Event} {pkt : PktMsg} {junk : Bytes}

/-- The call of the store that a step makes. -/
def storeCall (s : Session) : Event → Option StoreCall
  | .packet pkt _ =>
    if pkt.type = .Piece then some (.add pkt.piece.pcno.toNat (s.pieceBuf pkt))
    else if pkt.type = .Request ∧ s.conn.chokedPeer = false then some (.get pkt.req.pcno.toNat)
    else none
  | _ => none

/-- The store after a step that makes the call `x`. -/
def Calls (s : Session) (x : Option StoreCall) (ost : ObjStore) : Prop :=
  match x with
  | none => ost = s.ost
  | some x => ∃ r, s.ost.call x = .ok (r,ost)

theorem toInt_toNat {q : UInt32} {p : ℕ} (h : toInt q.toNat = p) : p = q.toNat := by
  have hlt := q.toNat_lt
  have hnat := toInt_of_nonneg (x := q.toNat) (by omega) (by omega) (by omega)
  omega

theorem handlePiece_calls (h : s.handlePiece pkt = .ok s') :
    s.Calls (some (.add pkt.piece.pcno.toNat (s.pieceBuf pkt))) s'.ost := by
  obtain ⟨p,hp,hlt,_⟩ := handlePiece_eq_ok h
  obtain ⟨⟨r,ost⟩,hadd,h⟩ := Outcome.bind_eq_ok.mp h
  cases h
  rw [hp,toInt_toNat hp] at hadd
  refine ⟨(r,[]),?_⟩
  rw [ObjStore.call,pieceBuf,hadd]
  rfl

theorem sendPiece_calls {pcno : UInt32} (h : s.sendPiece pcno junk = .ok s') :
    s.Calls (some (.get pcno.toNat)) s'.ost := by
  obtain ⟨p,hp,hlt,hbit,buf,cache,hget,rfl⟩ := sendPiece_eq_ok h
  refine ⟨(1,buf),?_⟩
  rw [← toInt_toNat hp,ObjStore.call,ObjStore.getPiece_of_held hlt hbit,hget]
  rfl

/-- The cases of the switch that do not name the store. -/
theorem dispatch_calls (ht : pkt.type ≠ .BitField) (h : s.dispatch pkt junk = .ok s') :
    s.Calls (s.storeCall (.packet pkt junk)) s'.ost := by
  by_cases hr : pkt.type = .Request
  · have hcall : s.storeCall (.packet pkt junk) =
        if s.conn.chokedPeer = false then some (.get pkt.req.pcno.toNat) else none := by
      simp [storeCall,hr]
    obtain ⟨k,nbr,_,s₁,h₁,rfl⟩ := dispatch_request hr h
    have host : (if !s₁.conn.chokedNode then s₁.sendRequests else s₁ : Session).ost = s₁.ost := by
      split <;> rfl
    rw [hcall,host]
    unfold answerRequest at h₁
    have hcopy : (s.setNbr k { nbr with requests := nbr.requests + 1 }).conn.chokedPeer = s.conn.chokedPeer := rfl
    rw [hcopy] at h₁
    cases hc : s.conn.chokedPeer with
    | true =>
      rw [hc] at h₁
      cases h₁
      rfl
    | false =>
      rw [hc,Bool.not_false,if_pos rfl] at h₁
      exact (sendPiece_calls h₁ :)
  have hnone : pkt.type ≠ .Piece → s.storeCall (.packet pkt junk) = none := by
    intro hp
    rw [storeCall,if_neg hp,if_neg (not_and_of_not_left _ hr)]
  unfold dispatch at h
  cases hty : pkt.type with
  | Piece =>
    simp only [hty] at h
    rw [storeCall,if_pos hty]
    exact handlePiece_calls h
  | BitField => exact absurd hty ht
  | Request => exact absurd hty hr
  | Handshake =>
    rw [hnone (by simp [hty])]
    simp only [hty] at h
    cases h
    simp only [Calls]
    split <;> rfl
  | Have =>
    rw [hnone (by simp [hty])]
    simp only [hty] at h
    cases h
    simp only [Calls,handleHave]
    split <;> rfl
  | Interested | NotInterested =>
    rw [hnone (by simp [hty])]
    simp only [hty] at h
    obtain ⟨_,_,h⟩ := Outcome.bind_eq_ok.mp h
    cases h
    rfl
  | Choke | UnChoke =>
    rw [hnone (by simp [hty])]
    simp only [hty] at h
    cases h
    rfl
  | Unnamed c hc =>
    simp only [hty] at h
    cases h

theorem hangUp_ost (h : s.hangUp = .ok (s',ph')) : s'.ost = s.ost := by
  obtain ⟨_,k,nbr,rfl⟩ := hangUp_eq_ok h
  rfl

theorem handle_calls (ht : pkt.type ≠ .BitField) (h : s.handle pkt junk = .ok s') :
    s.Calls (s.storeCall (.packet pkt junk)) s'.ost := by
  obtain ⟨s₁,h₁,h⟩ := Outcome.bind_eq_ok.mp h
  obtain ⟨_,rfl,_⟩ := chokeStatusCheck_eq_ok h₁
  exact (dispatch_calls ht h :)

/-- Every step calls the store at most once. -/
theorem event_calls (h : s.event ph ev = .ok (s',ph')) : s.Calls (s.storeCall ev) s'.ost := by
  unfold event at h
  split at h
  · cases h
    simp only [storeCall,Calls,start]
    split <;> rfl
  · rename_i pkt junk
    obtain h := Outcome.mapError_eq_ok.mp h
    unfold receive at h
    split at h
    · rename_i hb
      obtain ⟨s₁,h₁,h⟩ := Outcome.bind_eq_ok.mp h
      cases h
      obtain ⟨_,rfl,_⟩ := chokeStatusCheck_eq_ok h₁
      rw [recvBitField_eq]
      simp [storeCall,hb,Calls]
    · rename_i hb
      obtain ⟨s₁,h₁,h⟩ := Outcome.bind_eq_ok.mp h
      cases h
      exact handle_calls hb h₁
  · obtain h := Outcome.mapError_eq_ok.mp h
    have host : s.timeout.1.ost = s.ost := by rw [timeout_spec]
    unfold expire at h
    split at h
    · cases h
      exact host
    · exact (hangUp_ost h).trans host
  · exact hangUp_ost (Outcome.mapError_eq_ok.mp h)
  · obtain ⟨diff,_,h⟩ := Outcome.bind_eq_ok.mp (Outcome.mapError_eq_ok.mp h)
    cases h
    rfl
  · obtain ⟨e,_,h⟩ := Outcome.bind_eq_ok.mp (Outcome.mapError_eq_ok.mp h)
    cases h
    rfl
  · cases h
    exact (answerBitField_spec _ s).1
  · cases h

/-- Only a Piece changes the bitfield or the file. -/
theorem event_keeps_file (h : s.event ph ev = .ok (s',ph')) (hno : ∀ m ∈ ev.taken, m.type ≠ .Piece) :
    s'.ost.bfield = s.ost.bfield ∧ s'.ost.cache.file.data = s.ost.cache.file.data := by
  have hcalls := event_calls h
  unfold Calls at hcalls
  split at hcalls
  · rw [hcalls]
    exact ⟨rfl,rfl⟩
  · rename_i x hx
    obtain ⟨r,hr⟩ := hcalls
    rcases ObjStore.call_cases hr with ⟨host,_⟩ | ⟨p,buf,cache,_,_,_,hget,host⟩ | ⟨p,piece,cache,rfl,_⟩
    · rw [host]
      exact ⟨rfl,rfl⟩
    · rw [host]
      exact ⟨rfl,(Cache.get_frame hget).2⟩
    · -- such a call comes from a Piece
      cases ev with
      | packet pkt junk =>
        rw [storeCall,if_neg (hno pkt List.mem_cons_self)] at hx
        split at hx <;> cases hx
      | makeThread | resume | timeout | eof => cases hx

end Session

namespace Node
variable {ι : Type} [DecidableEq ι] {n₀ n n' : Node ι} {hist : NodeHist ι}

/-- The entry that a step adds to the history of the store. -/
def storeEntry (e : Node ι × Act ι × List PktMsg) : Option (ObjStore × StoreCall × ℕ × List Cell) :=
  match e.2.1 with
  | .thread c ev => ((e.1.session c).storeCall ev).bind fun x =>
    (e.1.ost.call x).toOption.map fun r => (e.1.ost,x,r.1)
  | .choke _ _ => none

/-- The Piece that a step takes, with the text that `handle_piece` makes of it. -/
def delivered (pcsz : ℕ) (e : Node ι × Act ι × List PktMsg) : Option (ℕ × List Cell) :=
  match e.2.1 with
  | .thread _ (.packet pkt _) =>
    if pkt.type = .Piece
      then some (pkt.piece.pcno.toNat,snprintf pcsz (pkt.piece.payload.map some ++ [some 0])) else none
  | _ => none

omit [DecidableEq ι] in
theorem storeEntry_thread (n : Node ι) (c : ι) (ev : Event) (out : List PktMsg) {ost : ObjStore}
    (h : (n.session c).Calls ((n.session c).storeCall ev) ost) :
    (n.session c).storeCall ev = none ∧ storeEntry (n,.thread c ev,out) = none ∧ ost = n.ost ∨
      ∃ x r, (n.session c).storeCall ev = some x ∧ storeEntry (n,.thread c ev,out) = some (n.ost,x,r) ∧
        n.ost.call x = .ok (r,ost) := by
  unfold Session.Calls at h
  split at h
  · rename_i hx
    refine Or.inl ⟨hx,?_,h⟩
    simp only [storeEntry,hx,Option.bind_none]
  · rename_i x hx
    obtain ⟨r,hr⟩ := h
    have hcall : n.ost.call x = .ok (r,ost) := hr
    refine Or.inr ⟨x,r,hx,?_,hcall⟩
    simp only [storeEntry,hx,Option.bind_some,hcall]
    rfl

/-- The run of the store inside a run of the node. -/
theorem store_run (run : Run (ExecStep Node.exec) n₀ hist n) :
    Run (ExecStep ObjStore.call) n₀.ost (hist.filterMap storeEntry) n.ost := by
  refine run.project (P := fun _ => True) (·.ost) storeEntry trivial (fun _ _ _ _ _ => trivial) ?_
  rintro n ⟨a,out⟩ n' _ hx
  cases a with
  | choke k choked =>
    cases hx
    exact Or.inl ⟨rfl,rfl⟩
  | thread c ev =>
    obtain ⟨r,hr,_,rfl⟩ := exec_event hx
    rcases storeEntry_thread n c ev out (Session.event_calls hr) with ⟨_,hg,host⟩ | ⟨x,q,_,hg,hcall⟩
    · exact Or.inl ⟨hg,host⟩
    · exact Or.inr ⟨(x,q),hg,hcall⟩

omit [DecidableEq ι] in
/-- What a Piece delivers is what its call stores. -/
theorem delivered_eq (n : Node ι) (c : ι) (ev : Event) (out : List PktMsg) :
    delivered n.ost.pcsz (n,.thread c ev,out) =
      ((n.session c).storeCall ev).bind (StoreCall.stores n.ost.pcsz) := by
  cases ev with
  | packet pkt junk =>
    by_cases ht : pkt.type = .Piece
    · have hbuf : (n.session c).pieceBuf pkt = snprintf n.ost.pcsz (pkt.piece.payload.map some ++ [some 0]) := rfl
      have hwindow := window_eq_self (snprintf_length n.ost.pcsz (pkt.piece.payload.map some ++ [some 0]))
      simp only [delivered,Session.storeCall,if_pos ht,Option.bind_some,StoreCall.stores,hbuf,hwindow]
    · simp only [delivered,Session.storeCall,if_neg ht]
      split <;> rfl
  | makeThread | resume | timeout | eof => rfl

theorem exec_pcsz {a : Act ι} {out : List PktMsg} (h : n.exec a = .ok (out,n')) : n'.ost.pcsz = n.ost.pcsz := by
  cases a with
  | choke k choked =>
    cases h
    rfl
  | thread c ev =>
    obtain ⟨r,hr,_,rfl⟩ := exec_event h
    have hcalls := Session.event_calls hr
    unfold Session.Calls at hcalls
    split at hcalls
    · exact congrArg ObjStore.pcsz hcalls
    · obtain ⟨q,hq⟩ := hcalls
      exact ObjStore.call_pcsz hq

theorem writes_eq (run : Run (ExecStep Node.exec) n₀ hist n) :
    (hist.filterMap storeEntry).filterMap (fun e => e.2.1.stores n₀.ost.pcsz) =
      hist.filterMap (delivered n₀.ost.pcsz) ∧ n.ost.pcsz = n₀.ost.pcsz := by
  induction run with
  | refl => exact ⟨rfl,rfl⟩
  | @tail hist n n' l run last ih =>
    obtain ⟨a,out⟩ := l
    obtain ⟨hlist,hpc⟩ := ih
    refine ⟨?_,(exec_pcsz last).trans hpc⟩
    cases a with
    | choke k choked => exact hlist
    | thread c ev =>
      obtain ⟨r,hr,_,_⟩ := exec_event last
      have hdel := delivered_eq n c ev out
      rw [hpc] at hdel
      rcases storeEntry_thread n c ev out (Session.event_calls hr) with ⟨hx,hg,_⟩ | ⟨x,q,hx,hg,_⟩
      · rw [hx,Option.bind_none] at hdel
        rw [List.filterMap_cons_none hg,List.filterMap_cons_none hdel,hlist]
      · rw [List.filterMap_cons_some hg,List.filterMap_cons,List.filterMap_cons,hdel,hx,Option.bind_some,hlist]

/-- Whatever arrives on the connections of a node and in whatever order its handlers run: the place
of a piece that was held from the beginning keeps its bytes, and every other piece is held from the
first Piece packet on that names it, with the text of that packet. -/
theorem first_piece_stays {fsz pcsz : ℕ} {s : ObjStore} (hpos : 0 < pcsz) (hfits : fsz + 8 * pcsz ≤ 2 ^ 31)
    (hnew : ObjStore.new fsz pcsz (npcsOf fsz pcsz) = .ok s) (hasfile : Bool) {disk : List Cell}
    (hdisk : hasfile = true → disk.length = fsz) (h₀ : n₀.ost = s.bfieldInit hasfile disk)
    (run : Run (ExecStep Node.exec) n₀ hist n) (p : ℕ) : n.ost.contents p =
      (n₀.ost.contents p).or (WriteOnce.first p (hist.filterMap (delivered pcsz)).reverse) := by
  have hset : n₀.ost.Settled := by
    rw [h₀]
    exact ObjStore.settled_init hpos hfits hnew hasfile hdisk
  have hpc : n₀.ost.pcsz = pcsz := by
    rw [h₀,(ObjStore.new_eq_ok.mp hnew).2]
    rfl
  rw [ObjStore.contents_run (store_run run) hset,(writes_eq run).1,hpc,WriteOnce.writeAll_apply]

/-- A node that is to get two pieces on two connections. -/
def twoPieces : Node Bool where
  ost := ObjStore.bfieldInit ⟨4,2,2,⟨∅,[],[],⟨[],0⟩,2,2,cachesz / 2⟩,⟨[]⟩⟩ false []
  nmap := NbrMap.new 2 2
  threads _ := Thread.new

def pieceOne (payload : Bytes) : Event := .packet { type := .Piece, piece := ⟨1,payload⟩ } []

/-- Both connections bring the second piece. -/
theorem first_piece_stays_two : ∃ hist n, Run (ExecStep Node.exec) twoPieces hist n ∧
    (hist.filterMap (delivered 2)).reverse = [(1,[some 97,some 0]),(1,[some 98,some 0])] ∧
    n.ost.contents 1 = some [some 97,some 0] := by
  obtain ⟨hist,n,run,h⟩ := @exists_run _ _ _ _ Node.exec twoPieces
    [.thread false (.makeThread 1 0),.thread true (.makeThread 1 0),.thread true (pieceOne [97]),
      .thread false (pieceOne [98])]
    (fun hist _ => (hist.filterMap (delivered 2)).reverse == [(1,[some 97,some 0]),(1,[some 98,some 0])])
    (by decide +kernel)
  have hdel := beq_iff_eq.mp h
  have hnew : ObjStore.new 4 2 (npcsOf 4 2) = .ok _ := ObjStore.new_eq_ok.mpr ⟨by decide,rfl⟩
  refine ⟨hist,n,run,hdel,?_⟩
  rw [first_piece_stays (by decide) (by norm_num) hnew false nofun rfl run 1,hdel]
  rfl

end Node
end BTRx
