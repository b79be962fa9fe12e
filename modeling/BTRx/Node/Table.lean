import BTRx.Handler.Registration
import BTRx.Node.Claims

/-! # The neighbour table of a node

A Handshake appends its id to `peers` whatever is there, while `peerinfo` keeps an older
entry for the same id; the handler is then left with a new object that no one else can
find. Every Handshake also lowers `npeers`, past zero if there are too many.
-/
namespace BTRx
open ByteSet Memory LittleEndian Transition

namespace Session
variable {s s' : Session}

/-- The id that an event registers. -/
def handshake : Event → Option ℤ
  | .packet pkt _ => if pkt.type = .Handshake then some (handshakeId pkt) else none
  | _ => none

theorem hangUp_keepsTable {ph' : Phase} (h : s.hangUp = .ok (s',ph')) :
    s.KeepsTable s' ∧ ph' ≠ .start := by
  obtain ⟨t,ht,h⟩ := Outcome.bind_eq_ok.mp h
  cases h
  obtain ⟨_,_,ht⟩ := Outcome.bind_eq_ok.mp ht
  cases ht
  exact ⟨(KeepsTable.refl s).setNbr _ _,nofun⟩

/-- A step of a thread registers an id, or starts the thread, or leaves the table alone. -/
theorem event_table {ph ph' : Phase} {ev : Event} (h : s.event ph ev = .ok (s',ph')) :
    ph' ≠ .start ∧ ((∃ id, handshake ev = some id ∧ s'.nmap = (s.nmap.registerCli id).2 ∧
        s'.conn.nbr = some s.nmap.nbrs.length) ∨
      handshake ev = none ∧ s.nmap.SameTable s'.nmap ∧ (s'.conn.nbr = s.conn.nbr ∨ ph = .start)) := by
  unfold event at h
  split at h
  · cases h
    refine ⟨by simp,Or.inr ⟨rfl,?_,Or.inr rfl⟩⟩
    unfold start
    split <;> exact .refl _
  · rename_i pkt junk
    have h := Outcome.mapError_eq_ok.mp h
    unfold receive at h
    by_cases hb : pkt.type = .BitField
    · rw [if_pos hb] at h
      obtain ⟨s₁,h₁,h⟩ := Outcome.bind_eq_ok.mp h
      cases h
      obtain ⟨new,rfl,_⟩ := chokeStatusCheck_eq_ok h₁
      rw [recvBitField_eq]
      exact ⟨by simp,Or.inr ⟨by simp [handshake,hb],.refl _,Or.inl rfl⟩⟩
    · rw [if_neg hb] at h
      obtain ⟨s₁,h₁,h⟩ := Outcome.bind_eq_ok.mp h
      cases h
      refine ⟨by simp,?_⟩
      by_cases ht : pkt.type = .Handshake
      · obtain ⟨hm,hn⟩ := handle_handshake ht h₁
        exact Or.inl ⟨_,if_pos ht,hm,hn⟩
      · obtain ⟨hm,hn⟩ := handle_keepsTable ht h₁
        exact Or.inr ⟨if_neg ht,hm,Or.inl hn⟩
  · rw [Outcome.mapError_eq_ok,expire] at h
    have hk := timeout_keepsTable s
    split at h
    · cases h
      exact ⟨by simp,Or.inr ⟨rfl,hk.table,Or.inl hk.nbr⟩⟩
    · obtain ⟨hl,hne⟩ := hangUp_keepsTable h
      exact ⟨hne,Or.inr ⟨rfl,hk.table.trans hl.table,Or.inl (hl.nbr.trans hk.nbr)⟩⟩
  · obtain ⟨hl,hne⟩ := hangUp_keepsTable (Outcome.mapError_eq_ok.mp h)
    exact ⟨hne,Or.inr ⟨rfl,hl.table,Or.inl hl.nbr⟩⟩
  · obtain ⟨diff,_,h⟩ := Outcome.bind_eq_ok.mp (Outcome.mapError_eq_ok.mp h)
    cases h
    exact ⟨by simp,Or.inr ⟨rfl,.refl _,Or.inl rfl⟩⟩
  · obtain ⟨e,_,h⟩ := Outcome.bind_eq_ok.mp (Outcome.mapError_eq_ok.mp h)
    cases h
    exact ⟨by simp,Or.inr ⟨rfl,⟨rfl,rfl,rfl,rfl⟩,Or.inl rfl⟩⟩
  · rename_i ret
    cases h
    obtain ⟨hm,hn⟩ := answerBitField_keepsTable s ret
    exact ⟨by simp,Or.inr ⟨rfl,hm,Or.inl hn⟩⟩
  · cases h

end Session

namespace Node
variable {ι : Type} [DecidableEq ι]

omit [DecidableEq ι] in
/-- The Handshake packets of a history, each with its connection, newest first. -/
def handshakes (hist : NodeHist ι) : List (ι × ℤ) :=
  hist.filterMap fun e => match e.2.1 with
    | .thread c ev => (Session.handshake ev).map fun id => (c,id)
    | .choke _ _ => none

/-- The id that a connection registered last. -/
def registeredId (hist : NodeHist ι) (c : ι) : Option ℤ :=
  ((handshakes hist).find? fun h => h.1 = c).map Prod.snd

/-- The list, the map, the pointers of the handlers and the counter agree. -/
structure TableConsistent (npeers : UInt32) (hist : NodeHist ι) (n : Node ι) : Prop where
  nodup : n.nmap.peers.Nodup
  keys : ∀ id, id ∈ n.nmap.peers ↔ id ∈ n.nmap.peerinfo
  pointers : ∀ c id, registeredId hist c = some id →
    ∃ k, (n.threads c).conn.nbr = some k ∧ n.nmap.peerinfo.lookup id = some k
  counter : n.nmap.npeers.toNat + (handshakes hist).length = npeers.toNat

/-- What holds of the table in every run. -/
structure TableInv (npeers : UInt32) (hist : NodeHist ι) (n : Node ι) : Prop where
  peers : n.nmap.peers = ((handshakes hist).map Prod.snd).reverse
  keys : ∀ id, id ∈ n.nmap.peers ↔ id ∈ n.nmap.peerinfo
  fresh : ∀ c, (n.threads c).phase = .start → registeredId hist c = none
  pointers : n.nmap.peers.Nodup → ∀ c id, registeredId hist c = some id →
    ∃ k, (n.threads c).conn.nbr = some k ∧ n.nmap.peerinfo.lookup id = some k
  counter : n.nmap.npeers + UInt32.ofNat (handshakes hist).length = npeers

variable {npeers : UInt32} {hist : NodeHist ι} {n n' : Node ι} {out : List PktMsg}

theorem TableInv.choke (h : TableInv npeers hist n) (k : ℕ) (choked : Bool) :
    TableInv npeers ((n,.choke k choked,out) :: hist) (n.leaveChoked k choked) := by
  have hand : handshakes ((n,.choke k choked,out) :: hist) = handshakes hist := rfl
  have hid : ∀ c, registeredId ((n,.choke k choked,out) :: hist) c = registeredId hist c :=
    fun _ => rfl
  exact ⟨h.peers,h.keys,fun c hc => (hid c).trans (h.fresh c hc),fun hnd c id hc =>
    h.pointers hnd c id ((hid c).symm.trans hc),hand ▸ h.counter⟩

/-- A step that registers no one. -/
theorem TableInv.kept (h : TableInv npeers hist n) {c : ι} {ev : Event} {s' : Session} {ph' : Phase}
    (hev : Session.handshake ev = none) (hph : ph' ≠ .start) (ht : n.nmap.SameTable s'.nmap)
    (hn : s'.conn.nbr = (n.threads c).conn.nbr ∨ (n.threads c).phase = .start) :
    TableInv npeers ((n,.thread c ev,out) :: hist) (n.put c (s',ph')) := by
  have hand : handshakes ((n,.thread c ev,out) :: hist) = handshakes hist := by
    simp [handshakes,hev]
  have hid : ∀ d, registeredId ((n,.thread c ev,out) :: hist) d = registeredId hist d := by
    intro d
    simp only [registeredId,hand]
  refine ⟨by rw [hand]; exact ht.peers.trans h.peers,fun id => ?_,fun d hd => ?_,
    fun hnd d id hd => ?_,by rw [hand]; exact (congrArg (· + _) ht.npeers).trans h.counter⟩
  · have hk := h.keys id
    rw [← ht.peers,← ht.peerinfo] at hk
    exact hk
  · rw [hid]
    by_cases heq : d = c
    · subst heq
      rw [put_self] at hd
      exact absurd hd hph
    · rw [put_other n heq] at hd
      exact h.fresh d hd
  · rw [hid] at hd
    have hold : n.nmap.peers.Nodup := ht.peers ▸ hnd
    obtain ⟨k,hk,hl⟩ := h.pointers hold d id hd
    have hl' : s'.nmap.peerinfo.lookup id = some k := ht.peerinfo ▸ hl
    refine ⟨k,?_,hl'⟩
    by_cases heq : d = c
    · subst heq
      rw [put_self]
      rcases hn with hn | hs
      · exact hn.trans hk
      · rw [h.fresh d hs] at hd
        cases hd
    · rw [put_other n heq]
      exact hk

/-- A registration, repeated or not. -/
theorem TableInv.registered (h : TableInv npeers hist n) {c : ι} {ev : Event} {s' : Session}
    {ph' : Phase} {id : ℤ} (hev : Session.handshake ev = some id) (hph : ph' ≠ .start)
    (hm : s'.nmap = (n.nmap.registerCli id).2) (hn : s'.conn.nbr = some n.nmap.nbrs.length) :
    TableInv npeers ((n,.thread c ev,out) :: hist) (n.put c (s',ph')) := by
  have hand : handshakes ((n,.thread c ev,out) :: hist) = (c,id) :: handshakes hist := by
    simp [handshakes,hev]
  have hpeers : (n.put c (s',ph')).nmap.peers = n.nmap.peers ++ [id] := by
    simp [put,hm,NbrMap.registerCli]
  have hinfo : (n.put c (s',ph')).nmap.peerinfo =
      n.nmap.peerinfo.insertNew id n.nmap.nbrs.length := by
    simp [put,hm,NbrMap.registerCli]
  have hself : registeredId ((n,.thread c ev,out) :: hist) c = some id := by
    simp [registeredId,hand]
  have hother : ∀ d, d ≠ c → registeredId ((n,.thread c ev,out) :: hist) d = registeredId hist d := by
    intro d hd
    simp [registeredId,hand,Ne.symm hd]
  refine ⟨by simp [hpeers,hand,h.peers],fun q => ?_,fun d hd => ?_,fun hnd d q hq => ?_,?_⟩
  · rw [hpeers,hinfo,List.mem_append,List.mem_singleton,h.keys]
    unfold PosMap.insertNew
    split
    · rename_i hmem
      constructor
      · rintro (hq | rfl)
        · exact hq
        · exact hmem
      · exact Or.inl
    · rw [AList.mem_insert,or_comm]
  · by_cases heq : d = c
    · subst heq
      rw [put_self] at hd
      exact absurd hd hph
    · rw [put_other n heq] at hd
      rw [hother d heq]
      exact h.fresh d hd
  · -- the new id is not a key yet, so its entry is the new pointer
    rw [hpeers] at hnd
    have hold : n.nmap.peers.Nodup := (List.nodup_append.mp hnd).1
    have hnew : id ∉ n.nmap.peers := by
      intro hmem
      exact (List.nodup_append.mp hnd).2.2 id hmem id (List.mem_singleton_self id) rfl
    have hnone : n.nmap.peerinfo.lookup id = none :=
      AList.lookup_eq_none.mpr fun hmem => hnew ((h.keys id).mpr hmem)
    rw [hinfo,PosMap.lookup_insertNew hnone]
    by_cases heq : d = c
    · subst heq
      rw [hself] at hq
      cases hq
      rw [put_self,if_pos rfl]
      exact ⟨_,hn,rfl⟩
    · rw [hother d heq] at hq
      obtain ⟨k,hk,hl⟩ := h.pointers hold d q hq
      have hne : q ≠ id := by
        rintro rfl
        rw [hl] at hnone
        cases hnone
      rw [put_other n heq,if_neg hne]
      exact ⟨k,hk,hl⟩
  · have hc := h.counter
    have hnp : (n.put c (s',ph')).nmap.npeers = n.nmap.npeers - 1 := by
      simp [put,hm,NbrMap.registerCli]
    have hone : UInt32.ofNat 1 = 1 := rfl
    rw [hnp,hand,List.length_cons,UInt32.ofNat_add,hone,UInt32.add_comm _ 1,← UInt32.add_assoc,
      UInt32.sub_add_cancel]
    exact hc

theorem tableInv_step (h : TableInv npeers hist n) {a : Act ι} (hx : n.exec a = .ok (out,n')) :
    TableInv npeers ((n,a,out) :: hist) n' := by
  cases a with
  | choke k choked =>
    cases hx
    exact h.choke k choked
  | thread c ev =>
    obtain ⟨⟨s',ph'⟩,he,hx⟩ := Outcome.bind_eq_ok.mp hx
    cases hx
    obtain ⟨hph,⟨id,hev,hm,hn⟩ | ⟨hev,hm,hn⟩⟩ := Session.event_table he
    · exact h.registered hev hph hm hn
    · exact h.kept hev hph hm hn

/-- In any run of a node the table is consistent exactly as long as no id is registered
twice and there are no more registrations than `npeers` counts. -/
theorem tableConsistent_iff {n₀ : Node ι} {npcs : ℕ} (hmap : n₀.nmap = NbrMap.new npeers npcs)
    (run : Run (ExecStep Node.exec) n₀ hist n) : TableConsistent npeers hist n ↔
      ((handshakes hist).map Prod.snd).Nodup ∧ (handshakes hist).length ≤ npeers.toNat := by
  have hinv : TableInv npeers hist n := by
    refine run.always (P := TableInv npeers) ?_ fun hist n a n' h hx => tableInv_step h hx
    refine ⟨by rw [hmap]; rfl,fun id => ?_,fun _ _ => rfl,fun _ c id hc => (nomatch hc),?_⟩
    · rw [hmap]
      simp [NbrMap.new]
    · rw [hmap]
      exact UInt32.add_zero npeers
  have hnd : n.nmap.peers.Nodup ↔ ((handshakes hist).map Prod.snd).Nodup := by
    rw [hinv.peers,List.nodup_reverse]
  constructor
  · intro h
    exact ⟨hnd.mp h.nodup,by rw [← h.counter]; omega⟩
  · rintro ⟨hids,hle⟩
    refine ⟨hnd.mpr hids,hinv.keys,hinv.pointers (hnd.mpr hids),?_⟩
    have hlt : (handshakes hist).length < 2 ^ 32 := hle.trans_lt npeers.toNat_lt
    have hsub : n.nmap.npeers = npeers - UInt32.ofNat (handshakes hist).length := by
      rw [← hinv.counter,UInt32.add_sub_cancel]
    have hof : (UInt32.ofNat (handshakes hist).length).toNat = (handshakes hist).length :=
      UInt32.toNat_ofNat_of_lt' hlt
    rw [hsub,UInt32.toNat_sub_of_le _ _ (by rw [UInt32.le_iff_toNat_le,hof]; exact hle),hof]
    omega

/-- A node with one piece and three peers, whose two connections were accepted. -/
def tableDemo : Node (Fin 2) where
  ost :=
    { fsz := 1
      pcsz := 1
      npcs := 1
      cache := ⟨∅,[],[],⟨[some 7],0⟩,1,1,1⟩
      bfield := ⟨[1]⟩ }
  nmap := NbrMap.new 3 1
  threads := fun _ => ⟨Conn.new 1 0,.ready⟩

def handshakeFrom (c : Fin 2) (peerid : UInt32) : Act (Fin 2) :=
  .thread c (.packet { type := .Handshake, hshake :=
    { header := Vector.replicate 19 0, zero := Vector.replicate 10 0, peerid } } [])

theorem tableConsistent_two : ∃ hist n, Run (ExecStep Node.exec) tableDemo hist n ∧
    handshakes hist = [(1,5),(0,4)] ∧ TableConsistent 3 hist n := by
  have run := run_of_execAll .refl (show execAll Node.exec [handshakeFrom 0 4,handshakeFrom 1 5] []
    tableDemo = .ok _ from rfl)
  have hmap : tableDemo.nmap = NbrMap.new 3 1 := rfl
  refine ⟨_,_,run,?_,(tableConsistent_iff hmap run).mpr ?_⟩
  · decide +kernel
  · decide +kernel

/-- Two connections whose peers both say they are number 4. -/
theorem table_not_consistent : ∃ hist n, Run (ExecStep Node.exec) tableDemo hist n ∧
    ¬ TableConsistent 3 hist n := by
  have run := run_of_execAll .refl (show execAll Node.exec [handshakeFrom 0 4,handshakeFrom 1 4] []
    tableDemo = .ok _ from rfl)
  refine ⟨_,_,run,fun h => ?_⟩
  exact absurd h.nodup (by decide)

end Node

end BTRx
