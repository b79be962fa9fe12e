import BTRx.NbrMap.Threads
import BTRx.Node.Flags

/-! # A node with all of its threads

Beside the handlers run the two threads that `NbrMap` starts. To the handlers they are an
environment that clears flags, so every run of the process is a run of the node. But no
code sets `choked`: nobody is ever choked, the two threads never write, and one of them
never ends, on which `~NbrMap` waits for ever.
-/
namespace BTRx
open ByteSet Memory LittleEndian Transition

structure Process (ι : Type) where
  node : Node ι
  unchoker : Unchoker
  optUnchoker : OptUnchoker

inductive ProcAct (ι : Type)
  | thread (c : ι) (ev : Event)
  | unchoke
  | optUnchoke (rand : ℕ)

/-- Steps of a process with the states before them, newest first. -/
abbrev ProcHist (ι : Type) := List (Process ι × ProcAct ι × List PktMsg)

namespace Process
variable {ι : Type} [DecidableEq ι]

def exec (nPrefPeers : ℤ) (p : Process ι) : ProcAct ι → Except Refusal (List PktMsg × Process ι)
  | .thread c ev => do
    let (out,node) ← p.node.exec (.thread c ev)
    return (out,{ p with node })
  | .unchoke => do
    let (unchoker,nmap) ← (p.unchoker.step nPrefPeers p.node.nmap).mapError .fault
    return ([],{ p with unchoker, node := { p.node with nmap } })
  | .optUnchoke rand => do
    let (optUnchoker,nmap) ← (p.optUnchoker.step p.node.nmap rand).mapError .fault
    return ([],{ p with optUnchoker, node := { p.node with nmap } })

omit [DecidableEq ι] in
/-- A step as a step of the node, where it is one. -/
def act : Process ι × ProcAct ι × List PktMsg → Option (Node ι × Act ι × List PktMsg)
  | (p,.thread c ev,out) => some (p.node,.thread c ev,out)
  | (p,.unchoke,_) => (p.unchoker.clears p.node.nmap).map fun k => (p.node,.choke k false,[])
  | (p,.optUnchoke rand,_) =>
    (p.optUnchoker.clears p.node.nmap rand).map fun k => (p.node,.choke k false,[])

omit [DecidableEq ι] in
/-- A step of a handler. -/
def handled : Process ι × ProcAct ι × List PktMsg → Option (Node ι × Act ι × List PktMsg)
  | (p,.thread c ev,out) => some (p.node,.thread c ev,out)
  | _ => none

/-- A process before its first connection. -/
structure Fresh (p : Process ι) : Prop where
  nbrs : p.node.nmap.nbrs = []
  threads : ∀ c, p.node.threads c = Thread.new
  unchoker : p.unchoker = .sleeping
  optUnchoker : p.optUnchoker = .sleeping

variable {nPrefPeers : ℤ} {p₀ p p' : Process ι} {hist : ProcHist ι} {a : ProcAct ι} {out : List PktMsg}

/-- What a step of a process does to its node. -/
theorem exec_node (h : p.exec nPrefPeers a = .ok (out,p')) :
    act (p,a,out) = none ∧ p'.node = p.node ∨
      ∃ b, act (p,a,out) = some (p.node,b) ∧ p.node.exec b.1 = .ok (b.2,p'.node) := by
  cases a with
  | thread c ev =>
    obtain ⟨⟨o,n⟩,hx,h⟩ := Outcome.bind_eq_ok.mp h
    cases h
    exact Or.inr ⟨_,rfl,hx⟩
  | unchoke =>
    obtain ⟨⟨u,m⟩,hx,h⟩ := Outcome.bind_eq_ok.mp h
    cases h
    rcases Unchoker.step_clears (Outcome.mapError_eq_ok.mp hx) with ⟨hc,rfl⟩ | ⟨k,nbr,hc,_,_,rfl⟩
    · exact Or.inl ⟨by simp [act,hc],rfl⟩
    · exact Or.inr ⟨(.choke k false,[]),by simp [act,hc],rfl⟩
  | optUnchoke rand =>
    obtain ⟨⟨u,m⟩,hx,h⟩ := Outcome.bind_eq_ok.mp h
    cases h
    rcases OptUnchoker.step_clears (Outcome.mapError_eq_ok.mp hx) with ⟨hc,rfl,_⟩ | ⟨k,nbr,hc,_,_,rfl⟩
    · exact Or.inl ⟨by simp [act,hc],rfl⟩
    · exact Or.inr ⟨(.choke k false,[]),by simp [act,hc],rfl⟩

/-- Every run of a process is a run of its node, in which flags are only cleared. -/
theorem node_run (run : Run (ExecStep (exec nPrefPeers)) p₀ hist p) :
    Run (ExecStep Node.exec) p₀.node (hist.filterMap act) p.node := by
  refine run.project (P := fun _ => True) Process.node act trivial (fun _ _ _ _ _ => trivial) ?_
  rintro p ⟨a,out⟩ p' _ hx
  exact exec_node hx

/-! ## Nobody is choked -/

/-- No neighbour is choked, and no handler believes that one is. -/
structure Unchoked (n : Node ι) : Prop where
  nbrs : ∀ nbr ∈ n.nmap.nbrs, nbr.choked = false
  copies : ∀ c, (n.threads c).conn.chokedPeer = false

/-- A step of a handler announces no status then. -/
theorem Unchoked.thread {n n' : Node ι} (h : Unchoked n) {c : ι} {ev : Event}
    (hx : n.exec (.thread c ev) = .ok (out,n')) : Unchoked n' ∧ Session.statuses out = [] := by
  obtain ⟨r,hr,rfl,rfl⟩ := Node.exec_event hx
  refine ⟨⟨Session.event_unchoked hr h.nbrs,fun d => ?_⟩,?_⟩
  · by_cases hd : d = c
    · subst hd
      rw [Node.put_self]
      exact (Session.event_moved hr).chokedPeer (h.copies d)
    · rw [Node.put_other n hd]
      exact h.copies d
  · obtain ⟨new,hout,hsaid⟩ := Session.event_said hr
    rw [hout,show (n.session c).out = [] from rfl,List.nil_append]
    refine hsaid.statuses.resolve_right ?_
    rintro ⟨k,nbr,hnbr,hne⟩
    have hk := h.nbrs nbr (List.mem_of_getElem? (Session.nbrAt_getElem? hnbr))
    exact hne (hk.trans (h.copies c).symm)

/-- A step of a process: a handler's, or one that leaves the node as it is. -/
theorem Unchoked.step (h : Unchoked p.node) (hx : p.exec nPrefPeers a = .ok (out,p')) :
    Unchoked p'.node ∧ Session.statuses out = [] ∧
      (handled (p,a,out) = none ∧ p'.node = p.node ∨
        ∃ b, handled (p,a,out) = some (p.node,b) ∧ p.node.exec b.1 = .ok (b.2,p'.node)) := by
  have hnot : ∀ {k : ℕ} {nbr : Nbr}, p.node.nmap.nbrs[k]? = some nbr → nbr.choked ≠ true := by
    intro k nbr hk
    rw [h.nbrs nbr (List.mem_of_getElem? hk)]
    exact Bool.false_ne_true
  cases a with
  | thread c ev =>
    obtain ⟨⟨o,n⟩,hn,hx⟩ := Outcome.bind_eq_ok.mp hx
    cases hx
    obtain ⟨hnext,hst⟩ := h.thread hn
    exact ⟨hnext,hst,Or.inr ⟨_,rfl,hn⟩⟩
  | unchoke =>
    obtain ⟨⟨u,m⟩,hu,hx⟩ := Outcome.bind_eq_ok.mp hx
    cases hx
    rcases Unchoker.step_clears (Outcome.mapError_eq_ok.mp hu) with ⟨_,rfl⟩ | ⟨k,nbr,_,hk,hc,_⟩
    · exact ⟨h,rfl,Or.inl ⟨rfl,rfl⟩⟩
    · exact absurd hc (hnot hk)
  | optUnchoke rand =>
    obtain ⟨⟨u,m⟩,hu,hx⟩ := Outcome.bind_eq_ok.mp hx
    cases hx
    rcases OptUnchoker.step_clears (Outcome.mapError_eq_ok.mp hu) with ⟨_,rfl,_⟩ | ⟨k,nbr,_,hk,hc,_⟩
    · exact ⟨h,rfl,Or.inl ⟨rfl,rfl⟩⟩
    · exact absurd hc (hnot hk)

omit [DecidableEq ι] in
theorem Fresh.unchoked (h : p.Fresh) : Unchoked p.node := by
  refine ⟨fun nbr hnbr => ?_,fun c => ?_⟩
  · rw [h.nbrs] at hnbr
    exact absurd hnbr List.not_mem_nil
  · rw [h.threads c]
    rfl

theorem Fresh.run_unchoked (h₀ : p₀.Fresh) (run : Run (ExecStep (exec nPrefPeers)) p₀ hist p) :
    Unchoked p.node ∧ ∀ e ∈ hist, Session.statuses e.2.2 = [] := by
  refine run.always (P := fun hist p => Unchoked p.node ∧ ∀ e ∈ hist, Session.statuses e.2.2 = [])
    ⟨h₀.unchoked,fun e he => absurd he List.not_mem_nil⟩ ?_
  rintro hist p ⟨a,out⟩ p' ⟨hc,hst⟩ hx
  obtain ⟨hnext,hout,_⟩ := hc.step hx
  exact ⟨hnext,List.forall_mem_cons.mpr ⟨hout,hst⟩⟩

/-- In every interleaving of all threads nobody is ever choked or told so, and what is
left of a run without the unchoke threads is a run of the handlers to the same node. -/
theorem nobody_choked (h₀ : p₀.Fresh) (run : Run (ExecStep (exec nPrefPeers)) p₀ hist p) :
    (∀ nbr ∈ p.node.nmap.nbrs, nbr.choked = false) ∧
      (∀ e ∈ hist, ∀ m ∈ e.2.2, m.type ≠ .Choke ∧ m.type ≠ .UnChoke) ∧
      Run (ExecStep Node.exec) p₀.node (hist.filterMap handled) p.node := by
  obtain ⟨hc,hst⟩ := h₀.run_unchoked run
  refine ⟨hc.nbrs,fun e he m hm => ?_,?_⟩
  · have hnone := List.filterMap_eq_nil_iff.mp (hst e he) m hm
    constructor <;> intro ht <;> simp [ht] at hnone
  · refine run.project (P := fun p => Unchoked p.node) Process.node handled h₀.unchoked ?_ ?_
    · rintro p ⟨a,out⟩ p' h hx
      exact (h.step hx).1
    · rintro p ⟨a,out⟩ p' h hx
      exact (h.step hx).2.2

omit [DecidableEq ι] in
/-- A node with one piece and one connection, on which number 0 introduces itself. -/
def lone (npeers : UInt32) : Process Unit where
  node :=
    { ost :=
      { fsz := 1
        pcsz := 1
        npcs := 1
        cache := ⟨∅,[],[],⟨[some 7],0⟩,1,1,1⟩
        bfield := ⟨[1]⟩ }
      nmap := NbrMap.new npeers 1
      threads := fun _ => Thread.new }
  unchoker := .sleeping
  optUnchoker := .sleeping

def visit : List (ProcAct Unit) :=
  [.thread () (.makeThread 1 0),.thread () (.packet { type := .Handshake } [])]

theorem lone_fresh (npeers : UInt32) : (lone npeers).Fresh := ⟨rfl,fun _ => rfl,rfl,rfl⟩

/-- The neighbour is interested, and both threads are in their loops. -/
theorem nobody_choked_one : ∃ hist p, Run (ExecStep (exec 1)) (lone 1) hist p ∧
    p.optUnchoker = .drawing ∧ p.node.nmap.nbrs = [⟨false,false,true,0⟩] ∧
    (∀ nbr ∈ p.node.nmap.nbrs, nbr.choked = false) ∧
      (∀ e ∈ hist, ∀ m ∈ e.2.2, m.type ≠ .Choke ∧ m.type ≠ .UnChoke) ∧
      Run (ExecStep Node.exec) (lone 1).node (hist.filterMap handled) p.node := by
  obtain ⟨hist,p,run,h⟩ := @exists_run _ _ _ _ (exec 1) (lone 1)
    (visit ++ [.unchoke,.thread () (.packet { type := .Interested } []),.unchoke,.unchoke,.unchoke,
      .optUnchoke 0,.optUnchoke 3])
    (fun _ p => p.optUnchoker == .drawing && p.node.nmap.nbrs == [⟨false,false,true,0⟩]) (by decide +kernel)
  rw [Bool.and_eq_true,beq_iff_eq,beq_iff_eq] at h
  exact ⟨hist,p,run,h.1,h.2,nobody_choked (lone_fresh 1) run⟩

/-! ## Whether the threads end -/

/-- The Handshakes a process has handled. -/
def registrations (hist : ProcHist ι) : ℕ := (Node.handshakes (hist.filterMap act)).length

omit [DecidableEq ι] in
theorem registrations_mono (e : Process ι × ProcAct ι × List PktMsg) (hist : ProcHist ι) :
    registrations hist ≤ registrations (e :: hist) :=
  (((List.sublist_cons_self e hist).filterMap act).filterMap _).length_le

theorem npeers_ne_zero (run : Run (ExecStep (exec nPrefPeers)) p₀ hist p)
    (h : registrations hist < p₀.node.nmap.npeers.toNat) : p.node.nmap.npeers ≠ 0 := by
  intro hz
  have hcount := Node.npeers_counts (node_run run)
  have hlt : registrations hist < 2 ^ 32 := h.trans p₀.node.nmap.npeers.toNat_lt
  rw [hz,zero_add] at hcount
  rw [← hcount] at h
  exact h.ne (UInt32.toNat_ofNat_of_lt' hlt).symm

/-- `opt_unchoke_handler` never ends, and while there are fewer registrations than
`npeers` counts neither thread ever gets past its gate. -/
theorem unchokers_stay (h₀ : p₀.Fresh) (run : Run (ExecStep (exec nPrefPeers)) p₀ hist p) :
    p.optUnchoker ≠ .left ∧ (registrations hist < p₀.node.nmap.npeers.toNat →
      p.unchoker = .sleeping ∧ p.optUnchoker = .sleeping) := by
  induction run with
  | refl => exact ⟨by rw [h₀.optUnchoker]; simp,fun _ => ⟨h₀.unchoker,h₀.optUnchoker⟩⟩
  | @tail hist p p' l run last ih =>
    obtain ⟨a,out⟩ := l
    obtain ⟨hopt,hsleep⟩ := ih
    have hmono := registrations_mono (p,a,out) hist
    replace last : p.exec nPrefPeers a = .ok (out,p') := last
    cases a with
    | thread c ev =>
      obtain ⟨⟨o,n⟩,_,last⟩ := Outcome.bind_eq_ok.mp last
      cases last
      exact ⟨hopt,fun h => hsleep (hmono.trans_lt h)⟩
    | unchoke =>
      obtain ⟨⟨u,m⟩,hu,last⟩ := Outcome.bind_eq_ok.mp last
      cases last
      refine ⟨hopt,fun h => ?_⟩
      obtain ⟨hs,ho⟩ := hsleep (hmono.trans_lt h)
      have hgate := npeers_ne_zero run (hmono.trans_lt h)
      rw [Outcome.mapError_eq_ok,hs,Unchoker.step,if_pos hgate] at hu
      cases hu
      exact ⟨rfl,ho⟩
    | optUnchoke rand =>
      obtain ⟨⟨u,m⟩,hu,last⟩ := Outcome.bind_eq_ok.mp last
      cases last
      rw [Outcome.mapError_eq_ok] at hu
      refine ⟨OptUnchoker.step_ne_left hopt hu,fun h => ?_⟩
      obtain ⟨hs,ho⟩ := hsleep (hmono.trans_lt h)
      have hgate := npeers_ne_zero run (hmono.trans_lt h)
      rw [ho,OptUnchoker.step,if_pos hgate] at hu
      cases hu
      exact ⟨hs,rfl⟩

/-- The only other peer is registered and gone. -/
theorem unchokers_stay_one : ∃ hist p, Run (ExecStep (exec 1)) (lone 2) hist p ∧ registrations hist = 1 ∧
    p.node.nmap.nbrs = [⟨false,true,false,0⟩] ∧ p.optUnchoker ≠ .left ∧
      (1 < 2 → p.unchoker = .sleeping ∧ p.optUnchoker = .sleeping) := by
  obtain ⟨hist,p,run,h⟩ := @exists_run _ _ _ _ (exec 1) (lone 2)
    (visit ++ [.thread () .eof,.unchoke,.optUnchoke 0])
    (fun hist p => registrations hist == 1 && p.node.nmap.nbrs == [⟨false,true,false,0⟩]) (by decide +kernel)
  rw [Bool.and_eq_true,beq_iff_eq,beq_iff_eq] at h
  obtain ⟨hopt,hstay⟩ := unchokers_stay (lone_fresh 2) run
  exact ⟨hist,p,run,h.1,h.2,hopt,fun _ => hstay (by rw [h.1]; decide)⟩

end Process

/-- The neighbour that an id leads to is done. -/
def NbrMap.DoneAt (m : NbrMap) (peer : ℤ) : Prop := ∀ e, m.nbrOf peer = .ok e → e.2.done = true

/-- The same table, in which no one has come back. -/
structure NbrMap.KeepsDone (m m' : NbrMap) : Prop where
  table : m.SameTable m'
  done : ∀ (k : ℕ) (nbr : Nbr), m.nbrs[k]? = some nbr →
    ∃ nbr' : Nbr, m'.nbrs[k]? = some nbr' ∧ (nbr.done = true → nbr'.done = true)

theorem NbrMap.KeepsDone.doneAt {m m' : NbrMap} (h : m.KeepsDone m') {peer : ℤ} (hd : m.DoneAt peer) :
    m'.DoneAt peer := by
  rintro ⟨k,nbr⟩ he
  obtain ⟨hl,hk⟩ := nbrOf_eq_ok.mp he
  rw [h.table.peerinfo] at hl
  have hlt : k < m.nbrs.length := by
    rw [← h.table.size]
    exact (List.getElem?_eq_some_iff.mp hk).1
  have hold := List.getElem?_eq_getElem hlt
  obtain ⟨nbr',hnbr',hdone⟩ := h.done k _ hold
  obtain rfl : nbr' = nbr := Option.some.inj (hnbr'.symm.trans hk)
  exact hdone (hd _ (nbrOf_eq_ok.mpr ⟨hl,hold⟩))

theorem NbrMap.keepsDone_clear (m : NbrMap) (k : ℕ) : m.KeepsDone (m.clear k) := by
  refine ⟨⟨rfl,rfl,rfl,List.length_modify _ _ _⟩,fun i nbr hi => ?_⟩
  rw [clear,List.getElem?_modify,hi]
  refine ⟨_,rfl,fun hd => ?_⟩
  split
  · exact hd
  · exact hd

/-- What `unchoke_handler` knows of the neighbours it has passed. -/
def Unchoker.Passed (m : NbrMap) : Unchoker → Prop
  | .collecting todo requests => m.npeers = 0 ∧ ∃ before, m.peers = before ++ todo ∧
    (requests = [] → ∀ peer ∈ before, m.DoneAt peer)
  | .left => m.npeers = 0 ∧ ∀ peer ∈ m.peers, m.DoneAt peer
  | _ => True

theorem Unchoker.Passed.keeps {m m' : NbrMap} {u : Unchoker} (h : u.Passed m) (hm : m.KeepsDone m') :
    u.Passed m' := by
  cases u with
  | sleeping => trivial
  | collecting todo requests =>
    obtain ⟨hn,before,hp,hd⟩ := h
    exact ⟨hm.table.npeers.trans hn,before,hm.table.peers.trans hp,
      fun hr peer hpeer => hm.doneAt (hd hr peer hpeer)⟩
  | clearing todo j => trivial
  | left =>
    refine ⟨hm.table.npeers.trans h.1,fun peer hpeer => hm.doneAt (h.2 peer ?_)⟩
    rwa [← hm.table.peers]

theorem RequestMap.insertNew_ne_nil (r : UInt32) (k : ℕ) (requests : RequestMap) :
    RequestMap.insertNew r k requests ≠ [] := by
  cases requests with
  | nil => simp [insertNew]
  | cons e rest =>
    unfold insertNew
    split
    · simp
    · split <;> simp

theorem Unchoker.passed_next (c : Prop) [Decidable c] (m : NbrMap) (rest : RequestMap) (j : ℤ) :
    Unchoker.Passed m (if c then .sleeping else .clearing rest j) := by
  split <;> trivial

theorem Unchoker.Passed.step {nPrefPeers : ℤ} {m m' : NbrMap} {u u' : Unchoker} (h : u.Passed m)
    (hx : u.step nPrefPeers m = .ok (u',m')) : u'.Passed m' := by
  unfold Unchoker.step at hx
  split at hx
  · split at hx
    · cases hx
      trivial
    · rename_i hn
      cases hx
      exact ⟨not_not.mp hn,[],rfl,fun _ peer hp => absurd hp List.not_mem_nil⟩
  · rename_i peer todo requests
    obtain ⟨hn,before,hp,hd⟩ := h
    obtain ⟨⟨k,nbr⟩,hnbr,hx⟩ := Outcome.bind_eq_ok.mp hx
    cases hx
    refine ⟨hn,before ++ [peer],by rw [hp,List.append_assoc]; rfl,fun hr q hq => ?_⟩
    -- a neighbour that is not done goes into the map
    cases hdone : nbr.done with
    | false => exact absurd hr (by simpa [hdone] using RequestMap.insertNew_ne_nil nbr.requests k requests)
    | true =>
      rcases List.mem_append.mp hq with hq | hq
      · exact hd (by simpa [hdone] using hr) q hq
      · intro e he
        rw [List.mem_singleton.mp hq,hnbr] at he
        cases he
        exact hdone
  · obtain ⟨hn,before,hp,hd⟩ := h
    split at hx
    · rename_i hr
      cases hx
      refine ⟨hn,fun peer hpeer => hd hr peer ?_⟩
      rwa [hp,List.append_nil] at hpeer
    · cases hx
      trivial
  · cases hx
    trivial
  · split at hx
    · cases hx
    · rw [← (Prod.mk.inj (Except.ok.inj hx)).1]
      exact passed_next _ _ _ _
  · cases hx
    exact h

namespace Process
variable {ι : Type} [DecidableEq ι] {nPrefPeers : ℤ} {p₀ p p' : Process ι} {hist : ProcHist ι}

omit [DecidableEq ι] in
theorem keepsDone_thread {n : Node ι} {c : ι} {ev : Event} {r : Session × Phase}
    (h : (n.session c).event (n.threads c).phase ev = .ok r) (hno : Session.handshake ev = none) :
    n.nmap.KeepsDone r.1.nmap := by
  rcases (Session.event_table h).2 with ⟨id,hev,_⟩ | ⟨_,hm,_⟩
  · rw [hno] at hev
    cases hev
  · refine ⟨hm,fun k nbr hk => ?_⟩
    obtain ⟨nbr',hnbr',_,hd⟩ := Session.event_serves h k nbr hk
    exact ⟨nbr',hnbr',hd⟩

/-- `unchoke_handler` only ends when every registered neighbour is done. -/
theorem left_all_done (hs : p₀.unchoker = .sleeping) (run : Run (ExecStep (exec nPrefPeers)) p₀ hist p)
    (hle : registrations hist ≤ p₀.node.nmap.npeers.toNat) (hleft : p.unchoker = .left) :
    ∀ e ∈ p.node.nmap.registered, e.2.done = true := by
  suffices hpassed : p.unchoker.Passed p.node.nmap by
    intro e he
    rw [hleft] at hpassed
    obtain ⟨peer,hpeer,hnbr⟩ := NbrMap.mem_registered.mp he
    exact hpassed.2 peer hpeer e hnbr
  clear hleft
  induction run with
  | refl =>
    rw [hs]
    trivial
  | @tail hist p p' l run last ih =>
    obtain ⟨a,out⟩ := l
    have hpassed := ih ((registrations_mono _ _).trans hle)
    replace last : p.exec nPrefPeers a = .ok (out,p') := last
    cases a with
    | thread c ev =>
      obtain ⟨⟨o,n⟩,hx,last⟩ := Outcome.bind_eq_ok.mp last
      cases last
      obtain ⟨r,hr,_,rfl⟩ := Node.exec_event hx
      cases hev : Session.handshake ev with
      | none => exact hpassed.keeps (keepsDone_thread hr hev)
      | some id =>
        -- the gate is still closed, so the thread has not begun to collect
        have hcount : registrations hist + 1 ≤ p₀.node.nmap.npeers.toNat := by
          have hone := @Node.handshakes_thread _ (hist.filterMap act) p.node c ev out
          rw [hev] at hone
          exact hone.symm.trans_le hle
        have hgate := npeers_ne_zero run hcount
        cases hu : p.unchoker with
        | sleeping => trivial
        | collecting todo requests =>
          rw [hu] at hpassed
          exact absurd hpassed.1 hgate
        | clearing todo j => trivial
        | left =>
          rw [hu] at hpassed
          exact absurd hpassed.1 hgate
    | unchoke =>
      obtain ⟨⟨u,m⟩,hu,last⟩ := Outcome.bind_eq_ok.mp last
      cases last
      exact hpassed.step (Outcome.mapError_eq_ok.mp hu)
    | optUnchoke rand =>
      obtain ⟨⟨u,m⟩,hu,last⟩ := Outcome.bind_eq_ok.mp last
      cases last
      rcases OptUnchoker.step_clears (Outcome.mapError_eq_ok.mp hu) with ⟨_,rfl,_⟩ | ⟨k,_,_,_,_,rfl⟩
      · exact hpassed
      · exact hpassed.keeps (NbrMap.keepsDone_clear _ k)

theorem left_all_done_one : ∃ hist p, Run (ExecStep (exec 1)) (lone 1) hist p ∧ p.unchoker = .left ∧
    ∀ e ∈ p.node.nmap.registered, e.2.done = true := by
  obtain ⟨hist,p,run,h⟩ := @exists_run _ _ _ _ (exec 1) (lone 1)
    (visit ++ [.thread () .eof,.unchoke,.unchoke,.unchoke])
    (fun hist p => registrations hist == 1 && match p.unchoker with | .left => true | _ => false)
    (by decide +kernel)
  rw [Bool.and_eq_true,beq_iff_eq] at h
  have hleft : p.unchoker = .left := by
    cases hu : p.unchoker <;> simp [hu] at h
    rfl
  exact ⟨hist,p,run,hleft,left_all_done rfl run (by rw [h.1]; decide) hleft⟩

end Process

end BTRx
