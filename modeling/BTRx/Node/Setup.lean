import BTRx.Handler.Loop

/-! # The setup of the connections

At its start every node connects to the peers that are listed before it and then accepts
the connections of the others. What `getaddrinfo` and the system calls of `connback`
answer is a parameter; the calls of `make_thread` succeed. `accept` blocks while no
connection has arrived. The handlers that `connback` starts run beside it, and until it
comes to `bfield_init` the bitfield they send is a null pointer; this race is left out.
-/
namespace BTRx
open Transition Memory ByteSet

/-- A row of `PeerInfo.cfg`. -/
structure PeerRow where
  peerid : ℤ
  host : String
  port : String
  hasfile : Bool

/-- A connection, by the ids of its two nodes. -/
structure Link where
  caller : ℤ
  callee : ℤ
  deriving DecidableEq

/-- The arguments of `cli_handler` in a thread. -/
structure HandlerThread where
  sock : Link
  peeridSelf : ℤ
  peeridPeer : ℤ
  deriving DecidableEq

/-- What becomes of one address that `getaddrinfo` has found. -/
inductive Attempt
  | noSocket
  | refused
  | connected

structure Setup where
  peerid : ℤ
  ost : ObjStore
  threads : List HandlerThread

namespace Setup

def makeThread (s : Setup) (sock : Link) (peeridPeer : ℤ) : Setup :=
  { s with threads := s.threads ++ [⟨sock,s.peerid,peeridPeer⟩] }

/-- The loop of `connback` over the addresses of one peer. -/
def tryAll (peer : ℤ) : List Attempt → Setup → Except Fault Setup
  | [],s => .ok s
  | .noSocket :: _,_ => .error .exit
  | .connected :: _,s => .ok (s.makeThread ⟨s.peerid,peer⟩ peer)
  | .refused :: attempts,s => tryAll peer attempts s

/-- The loop of `connback` from row `i` on, with `i + 1` at its end. A row whose lookup
fails has `none`. -/
def connback (dial : PeerRow → Option (List Attempt)) (disk : List Cell) :
    List PeerRow → UInt32 → Setup → Except Fault (UInt32 × Setup)
  | [],i,s => .ok (i + 1,s)
  | row :: rows,i,s =>
    if s.peerid = row.peerid then .ok (i + 1,{ s with ost := s.ost.bfieldInit row.hasfile disk })
    else
      match dial row with
      | none => .error .exit
      | some attempts => do
        let s ← s.tryAll row.peerid attempts
        s.connback dial disk rows (i + 1)

/-- A number of turns of the loop of `acceptloop`, on the connections that arrive, with those
that are left. It does not return if there are too few. -/
def acceptTurns : ℕ → List Link → Setup → Option (List Link × Setup)
  | 0,arriving,s => some (arriving,s)
  | _ + 1,[],_ => none
  | turns + 1,sock :: arriving,s => acceptTurns turns arriving (s.makeThread sock 0)

def acceptloop (clients size : UInt32) (arriving : List Link) (s : Setup) :
    Option (List Link × Setup) :=
  s.acceptTurns (size.toNat - clients.toNat) arriving

def socks (s : Setup) : List Link := s.threads.map HandlerThread.sock

/-! ## One node -/

/-- An address answers, if not the first one. -/
def Answers (attempts : List Attempt) : Prop :=
  ∃ k rest, attempts = List.replicate k .refused ++ .connected :: rest

variable {dial : PeerRow → Option (List Attempt)} {disk : List Cell}

theorem tryAll_answers {attempts : List Attempt} (h : Answers attempts) (peer : ℤ) (s : Setup) :
    s.tryAll peer attempts = .ok (s.makeThread ⟨s.peerid,peer⟩ peer) := by
  obtain ⟨k,rest,rfl⟩ := h
  induction k with
  | zero => simp [tryAll]
  | succ k ih => simpa [List.replicate_succ,tryAll] using ih

/-- The thread a node has for a peer it has called. -/
def calling (self : ℤ) (row : PeerRow) : HandlerThread := ⟨⟨self,row.peerid⟩,self,row.peerid⟩

/-- The thread a node has for a connection it has accepted. -/
def answering (self : ℤ) (sock : Link) : HandlerThread := ⟨sock,self,0⟩

/-- The peers in front of the own row are called one after the other. -/
theorem connback_of_answers {before after : List PeerRow} {own : PeerRow}
    (hother : ∀ row ∈ before, row.peerid ≠ own.peerid)
    (hdial : ∀ row ∈ before, ∃ attempts, dial row = some attempts ∧ Answers attempts)
    (i : UInt32) {s : Setup} (hs : s.peerid = own.peerid) :
    s.connback dial disk (before ++ own :: after) i =
      .ok (i + UInt32.ofNat before.length + 1,
        { peerid := s.peerid
          ost := s.ost.bfieldInit own.hasfile disk
          threads := s.threads ++ before.map (calling s.peerid) }) := by
  induction before generalizing i s with
  | nil => simp [connback,hs]
  | cons row before ih =>
    rw [List.forall_mem_cons] at hother hdial
    obtain ⟨attempts,hd,ha⟩ := hdial.1
    have hne : s.peerid ≠ row.peerid := hs ▸ hother.1.symm
    rw [List.cons_append,connback,if_neg hne,hd]
    simp only [tryAll_answers ha,Outcome.ok_bind]
    rw [ih hother.2 hdial.2 (i + 1) (s := s.makeThread ⟨s.peerid,row.peerid⟩ row.peerid) hs]
    have hlen : i + 1 + UInt32.ofNat before.length = i + UInt32.ofNat (row :: before).length := by
      rw [List.length_cons,UInt32.ofNat_add,UInt32.add_assoc,UInt32.add_comm 1]
      rfl
    rw [hlen]
    simp [makeThread,calling]

theorem acceptTurns_length (arriving : List Link) (s : Setup) :
    s.acceptTurns arriving.length arriving =
      some ([],{ s with threads := s.threads ++ arriving.map (answering s.peerid) }) := by
  induction arriving generalizing s with
  | nil => simp [acceptTurns]
  | cons sock arriving ih =>
    rw [List.length_cons,acceptTurns,ih]
    simp [makeThread,answering]

end Setup

/-! ## The handlers of a new connection -/

namespace Handler
variable {ost : ObjStore} {nmap : NbrMap} {peeridSelf peeridPeer : ℤ} {hist : Hist} {h : Handler}

/-- Until its first packet a handler sends nothing but what it has sent on entry. -/
theorem run_silent (run : Run Step (new ost nmap peeridSelf peeridPeer) hist h)
    (hquiet : ∀ e ∈ hist, ∀ i, e.2.act = .recv i → ¬ i.TakesPacket) :
    h.session.out = (new ost nmap peeridSelf peeridPeer).session.out := by
  have hinv : h.session.conn.reqs = ∅ ∧ h.session.conn.bfieldPeer = [] ∧
      h.session.out = (new ost nmap peeridSelf peeridPeer).session.out := by
    refine run.always (P := fun hist h => (∀ e ∈ hist, ∀ i, e.2.act = .recv i → ¬ i.TakesPacket) →
      h.session.conn.reqs = ∅ ∧ h.session.conn.bfieldPeer = [] ∧
      h.session.out = (new ost nmap peeridSelf peeridPeer).session.out) ?_ ?_ hquiet
    · intro _
      refine ⟨?_,?_,rfl⟩ <;> (simp only [new,Session.start]; split <;> rfl)
    · rintro hist h v h' ih ⟨_,hx⟩ hquiet
      rw [List.forall_mem_cons] at hquiet
      obtain ⟨hr,hb,ho⟩ := ih hquiet.2
      unfold exec at hx
      cases hact : v.act with
      | finish =>
        simp only [hact] at hx
        obtain ⟨s,hs,hx⟩ := Outcome.bind_eq_ok.mp hx
        cases hx
        obtain ⟨_,_,hs⟩ := Outcome.bind_eq_ok.mp hs
        cases hs
        exact ⟨hr,hb,ho⟩
      | recv i =>
        simp only [hact] at hx
        obtain ⟨⟨s,more⟩,hs,hx⟩ := Outcome.bind_eq_ok.mp hx
        cases hx
        rcases (h.shared v).iteration_cases i with ht | hp | ⟨_,he⟩ | ⟨f,_,he⟩
        · rw [Session.iteration_timeout ht,Session.timeout_spec] at hs
          cases hs
          simp [shared,hr,hb,ho,Session.haves,Session.setPositions,positions]
        · exact absurd hp (hquiet.1 i hact)
        · rw [he] at hs
          cases hs
          exact ⟨hr,hb,ho⟩
        · rw [he] at hs
          cases hs
  exact hinv.2.2

end Handler

namespace HandlerThread

/-- Whatever the store and the map, the thread begins with a Handshake. -/
def SendsFirst (t : HandlerThread) : Prop := ∀ ost nmap, ∃ pkt rest, pkt.type = .Handshake ∧
  (Handler.new ost nmap t.peeridSelf t.peeridPeer).session.out = pkt :: rest

/-- The thread sends nothing in any run in which it has not received a packet yet. -/
def Waits (t : HandlerThread) : Prop := ∀ ost nmap hist h,
  Run Handler.Step (Handler.new ost nmap t.peeridSelf t.peeridPeer) hist h →
  (∀ e ∈ hist, ∀ i, e.2.act = .recv i → ¬ i.TakesPacket) → h.session.out = []

theorem sendsFirst_of_ne {t : HandlerThread} (h : t.peeridPeer ≠ 0) : t.SendsFirst := by
  intro ost nmap
  simp only [Handler.new,Conn.new,Session.start,decide_eq_false h]
  exact ⟨_,_,rfl,rfl⟩

theorem waits_of_zero {t : HandlerThread} (h : t.peeridPeer = 0) : t.Waits := by
  intro ost nmap hist g run hquiet
  rw [Handler.run_silent run hquiet,h]
  rfl

end HandlerThread

/-! ## All nodes of a list -/

/-- The nodes of a peer list before their first connection. -/
structure Mesh where
  rows : List PeerRow
  node : Fin rows.length → Setup
  dial : Fin rows.length → PeerRow → Option (List Attempt)
  disk : Fin rows.length → List Cell

namespace Mesh

def ids (m : Mesh) : List ℤ := m.rows.map PeerRow.peerid

def idAt (m : Mesh) (k : Fin m.rows.length) : ℤ := (m.rows.get k).peerid

/-- The ids identify the rows, and every peer that is listed earlier can be reached. -/
structure Listed (m : Mesh) : Prop where
  distinct : m.ids.Nodup
  nonzero : ∀ row ∈ m.rows, row.peerid ≠ 0
  int : ∀ row ∈ m.rows, -2 ^ 31 ≤ row.peerid ∧ row.peerid < 2 ^ 31
  own : ∀ k, (m.node k).peerid = m.idAt k ∧ (m.node k).threads = []
  reach : ∀ i j, i < j → ∃ attempts, m.dial j (m.rows.get i) = some attempts ∧ Setup.Answers attempts

def connback (m : Mesh) (k : Fin m.rows.length) : Except Fault (UInt32 × Setup) :=
  (m.node k).connback (m.dial k) (m.disk k) m.rows 0

/-- The connections that have been made, to all nodes. -/
def made {m : Mesh} (connected : Fin m.rows.length → UInt32 × Setup) : List Link :=
  (List.finRange m.rows.length).flatMap fun k => (connected k).2.socks

/-- The connections that have been made to one node. -/
def madeTo {m : Mesh} (connected : Fin m.rows.length → UInt32 × Setup) (k : Fin m.rows.length) :
    List Link :=
  (made connected).filter fun l => l.callee = m.idAt k

variable {m : Mesh}

/-- What `connback` leaves on node `k`. -/
def called (m : Mesh) (k : Fin m.rows.length) : UInt32 × Setup :=
  (UInt32.ofNat k + 1,
    { peerid := m.idAt k
      ost := (m.node k).ost.bfieldInit (m.rows.get k).hasfile (m.disk k)
      threads := (m.ids.take k).map fun peer => ⟨⟨m.idAt k,peer⟩,m.idAt k,peer⟩ })

theorem lt_ids (m : Mesh) (i : Fin m.rows.length) : i.val < m.ids.length := by
  rw [ids,List.length_map]
  exact i.isLt

theorem ids_get (m : Mesh) (i : Fin m.rows.length) : m.ids.get ⟨i,m.lt_ids i⟩ = m.idAt i := by
  simp [ids,idAt]

theorem Listed.idAt_inj (h : m.Listed) {i k : Fin m.rows.length} : m.idAt i = m.idAt k ↔ i = k := by
  constructor
  · intro heq
    rw [← m.ids_get i,← m.ids_get k] at heq
    exact Fin.ext (Fin.mk.inj (h.distinct.injective_get heq))
  · exact congrArg _

/-- The id of a row stands in front of another row exactly when its row does. -/
theorem Listed.mem_take (h : m.Listed) (i k : Fin m.rows.length) :
    m.idAt i ∈ m.ids.take k ↔ i < k := by
  rw [List.mem_take_iff_getElem]
  constructor
  · rintro ⟨a,ha,heq⟩
    have ha' : a < m.rows.length := by
      have hlen : m.ids.length = m.rows.length := List.length_map _
      omega
    have hrow : m.idAt ⟨a,ha'⟩ = m.idAt i := (m.ids_get ⟨a,ha'⟩).symm.trans heq
    have hai := congrArg Fin.val (h.idAt_inj.mp hrow)
    exact Fin.lt_def.mpr (by simp only at hai; omega)
  · intro hik
    exact ⟨i,lt_min (Fin.lt_def.mp hik) (m.lt_ids i),m.ids_get i⟩

theorem Listed.count_take (h : m.Listed) (i k : Fin m.rows.length) :
    (m.ids.take k).count (m.idAt i) = if i < k then 1 else 0 := by
  rw [(h.distinct.sublist (List.take_sublist _ _)).count]
  simp only [h.mem_take]

theorem Listed.connback_eq (h : m.Listed) (k : Fin m.rows.length) :
    m.connback k = .ok (m.called k) := by
  have hsplit : m.rows = m.rows.take k ++ m.rows.get k :: m.rows.drop (k + 1) := by
    rw [List.get_eq_getElem,← List.drop_eq_getElem_cons k.isLt,List.take_append_drop]
  have hbefore : ∀ row ∈ m.rows.take k, ∃ i, i < k ∧ row = m.rows.get i := by
    intro row hrow
    obtain ⟨a,ha,rfl⟩ := List.mem_take_iff_getElem.mp hrow
    exact ⟨⟨a,by omega⟩,Fin.lt_def.mpr (by simp only; omega),rfl⟩
  have hother : ∀ row ∈ m.rows.take k, row.peerid ≠ (m.rows.get k).peerid := by
    intro row hrow heq
    obtain ⟨i,hi,rfl⟩ := hbefore row hrow
    exact hi.ne (h.idAt_inj.mp heq)
  have hdial : ∀ row ∈ m.rows.take k,
      ∃ attempts, m.dial k row = some attempts ∧ Setup.Answers attempts := by
    intro row hrow
    obtain ⟨i,hi,rfl⟩ := hbefore row hrow
    exact h.reach i k hi
  have hrun : (m.node k).connback (m.dial k) (m.disk k)
      (m.rows.take k ++ m.rows.get k :: m.rows.drop (k + 1)) 0 = _ :=
    Setup.connback_of_answers hother hdial 0 (h.own k).1
  rw [← hsplit] at hrun
  have hlen : (m.rows.take k).length = k := List.length_take_of_le k.isLt.le
  rw [connback,hrun,called,hlen,(h.own k).1,(h.own k).2,UInt32.zero_add]
  simp only [List.nil_append,ids,← List.map_take,List.map_map]
  rfl

/-- The connections between two nodes that one of the nodes has made. -/
theorem Listed.count_socks (h : m.Listed) (i j k : Fin m.rows.length) :
    (m.called k).2.socks.count ⟨m.idAt j,m.idAt i⟩ = if k = j ∧ i < j then 1 else 0 := by
  have hmap : (m.called k).2.socks = (m.ids.take k).map (Link.mk (m.idAt k)) := by
    simp only [called,Setup.socks,List.map_map]
    rfl
  rw [hmap]
  by_cases hk : k = j
  · subst hk
    rw [List.count_map_of_injective _ _ (fun a b hab => (Link.mk.inj hab).2),h.count_take]
    simp
  · rw [if_neg (fun hc => hk hc.1),List.count_eq_zero]
    intro hmem
    obtain ⟨_,_,heq⟩ := List.mem_map.mp hmem
    exact hk (h.idAt_inj.mp (Link.mk.inj heq).1)

theorem Listed.count_made (h : m.Listed) (i j : Fin m.rows.length) :
    (made m.called).count ⟨m.idAt j,m.idAt i⟩ = if i < j then 1 else 0 := by
  rw [made,List.count_flatMap]
  simp only [Function.comp_def,h.count_socks]
  rw [← Fin.sum_univ_def]
  by_cases hij : i < j
  · simp only [hij,and_true,Finset.sum_ite_eq',Finset.mem_univ,if_true]
  · simp only [hij,and_false,if_false,Finset.sum_const_zero]

theorem Listed.made_pairs (h : m.Listed) :
    ∀ l ∈ made m.called, ∃ i j, i < j ∧ l = ⟨m.idAt j,m.idAt i⟩ := by
  intro l hl
  obtain ⟨k,_,hl⟩ := List.mem_flatMap.mp hl
  simp only [called,Setup.socks,List.map_map] at hl
  obtain ⟨peer,hpeer,rfl⟩ := List.mem_map.mp hl
  obtain ⟨row,hrow,rfl⟩ := List.mem_map.mp (List.mem_of_mem_take hpeer)
  obtain ⟨i,rfl⟩ := List.get_of_mem hrow
  exact ⟨i,k,(h.mem_take i k).mp hpeer,rfl⟩

/-- Every later node has made one connection to node `i`. -/
theorem Listed.length_madeTo (h : m.Listed) (i : Fin m.rows.length) :
    (madeTo m.called i).length = m.rows.length - 1 - i := by
  have hsock : ∀ k, (m.called k).2.socks.countP (fun l => l.callee = m.idAt i) = if i < k then 1 else 0 := by
    intro k
    rw [← h.count_take,List.count]
    simp only [called,Setup.socks,List.map_map,List.countP_map]
    rfl
  rw [madeTo,← List.countP_eq_length_filter,made,List.countP_flatMap]
  simp only [Function.comp_def,hsock]
  rw [← Fin.sum_univ_def,Finset.sum_boole,Finset.filter_lt_eq_Ioi,Fin.card_Ioi]
  rfl

/-- The accepts that node `k` performs. -/
def accepts (m : Mesh) (connected : Fin m.rows.length → UInt32 × Setup) (k : Fin m.rows.length) : ℕ :=
  (UInt32.ofNat m.rows.length).toNat - (connected k).1.toNat

def acceptloop (m : Mesh) (connected : Fin m.rows.length → UInt32 × Setup)
    (arriving : List Link) (k : Fin m.rows.length) : Option (List Link × Setup) :=
  (connected k).2.acceptloop (connected k).1 (UInt32.ofNat m.rows.length) arriving

/-- There is one connection for each pair of nodes, made by the later one, which sends the
first Handshake. No node waits for a connection that nobody makes. -/
structure Full (m : Mesh) (connected : Fin m.rows.length → UInt32 × Setup)
    (final : Fin m.rows.length → Setup) : Prop where
  pairs : ∀ l ∈ made connected, ∃ i j, i < j ∧ l = ⟨m.idAt j,m.idAt i⟩
  once : ∀ i j k, (connected k).2.socks.count ⟨m.idAt j,m.idAt i⟩ = if k = j ∧ i < j then 1 else 0
  balance : ∀ k, m.accepts connected k = (madeTo connected k).length
  size : ∀ k, (final k).threads.length = m.rows.length - 1
  roles : ∀ i j, i < j → ∃ caller callee : HandlerThread,
    caller.peeridPeer ≠ 0 ∧ caller.SendsFirst ∧ callee.peeridPeer = 0 ∧ callee.Waits ∧
    ∀ k, ((final k).threads.filter fun t => t.sock = ⟨m.idAt j,m.idAt i⟩) =
      if k = j then [caller] else if k = i then [callee] else []

theorem length_lt_of_nodup {ids : List ℤ} {a b : ℤ} (h : ids.Nodup) (hids : ∀ x ∈ ids, x ≠ 0 ∧ a ≤ x ∧ x < b)
    (ha : a ≤ 0) (hb : 0 < b) : ids.length < (b - a).toNat := by
  have hsub : ids.toFinset ⊂ Finset.Ico a b := by
    refine (Finset.ssubset_iff_of_subset fun x hx => ?_).mpr ⟨0,Finset.mem_Ico.mpr ⟨ha,hb⟩,fun h0 => ?_⟩
    · exact Finset.mem_Ico.mpr (hids x (List.mem_toFinset.mp hx)).2
    · exact (hids 0 (List.mem_toFinset.mp h0)).1 rfl
  have hcard := Finset.card_lt_card hsub
  rwa [List.toFinset_card_of_nodup h,Int.card_Ico] at hcard

/-- The ids are ints, so the rows are fewer than `uint32_t` can count. -/
theorem Listed.length_lt (h : m.Listed) : m.rows.length < 2 ^ 32 := by
  have hids : ∀ x ∈ m.ids, x ≠ 0 ∧ -2 ^ 31 ≤ x ∧ x < 2 ^ 31 := by
    intro x hx
    obtain ⟨row,hrow,rfl⟩ := List.mem_map.mp hx
    exact ⟨h.nonzero row hrow,h.int row hrow⟩
  have hlen := length_lt_of_nodup h.distinct hids (by norm_num) (by norm_num)
  rw [ids,List.length_map] at hlen
  exact hlen

theorem Listed.accepts_eq (h : m.Listed) (k : Fin m.rows.length) :
    m.accepts m.called k = m.rows.length - 1 - k := by
  have hlt := h.length_lt
  have hk := k.isLt
  have hsucc : UInt32.ofNat k.val + 1 = UInt32.ofNat (k.val + 1) := (UInt32.ofNat_add _ _).symm
  rw [accepts,called,hsucc,UInt32.toNat_ofNat_of_lt' hlt,UInt32.toNat_ofNat_of_lt' (by exact lt_of_le_of_lt hk hlt)]
  omega

/-- The threads for one connection among those of the calls of node `k`. -/
theorem Listed.filter_called (h : m.Listed) {i j : Fin m.rows.length} (hij : i < j)
    (k : Fin m.rows.length) :
    ((m.called k).2.threads.filter fun t => t.sock = ⟨m.idAt j,m.idAt i⟩) =
      if k = j then [⟨⟨m.idAt j,m.idAt i⟩,m.idAt j,m.idAt i⟩] else [] := by
  simp only [called,List.filter_map,Function.comp_def,Link.mk.injEq,h.idAt_inj]
  by_cases hk : k = j
  · subst hk
    have hone : (m.ids.take k).filter (fun peer => decide (peer = m.idAt i)) = [m.idAt i] := by
      have hbeq := List.filter_beq (l := m.ids.take k) (m.idAt i)
      rw [h.count_take,if_pos hij] at hbeq
      simpa [beq_eq_decide] using hbeq
    simp only [true_and,hone,if_true,List.map_cons,List.map_nil]
  · simp [hk]

/-- Of the connections that node `k` accepts, at most one is with a given node. -/
theorem Listed.filter_accepted (h : m.Listed) {i j : Fin m.rows.length} (hij : i < j)
    (k : Fin m.rows.length) {arriving : List Link} (hperm : arriving.Perm (madeTo m.called k)) :
    ((arriving.map (Setup.answering (m.idAt k))).filter fun t => t.sock = ⟨m.idAt j,m.idAt i⟩) =
      if k = i then [⟨⟨m.idAt j,m.idAt i⟩,m.idAt i,0⟩] else [] := by
  have hcount : arriving.count ⟨m.idAt j,m.idAt i⟩ = if k = i then 1 else 0 := by
    rw [hperm.count_eq,madeTo]
    by_cases hk : k = i
    · subst hk
      rw [List.count_filter (by simp),h.count_made,if_pos hij,if_pos rfl]
    · rw [if_neg hk,List.count_eq_zero]
      intro hmem
      have hcallee := (List.mem_filter.mp hmem).2
      exact hk (h.idAt_inj.mp (of_decide_eq_true hcallee)).symm
  have hfilter := List.filter_beq (l := arriving) (Link.mk (m.idAt j) (m.idAt i))
  rw [List.filter_map]
  simp only [Function.comp_def,Setup.answering,← beq_eq_decide]
  rw [hfilter,hcount]
  by_cases hk : k = i
  · subst hk
    simp [Setup.answering]
  · simp [hk]

/-- What both loops leave on node `k`. -/
def joined (m : Mesh) (arriving : List Link) (k : Fin m.rows.length) : Setup :=
  { (m.called k).2 with
    threads := (m.called k).2.threads ++ arriving.map (Setup.answering (m.idAt k)) }

theorem acceptloop_eq {arriving : List Link} {k : Fin m.rows.length}
    (hlen : arriving.length = m.accepts m.called k) :
    m.acceptloop m.called arriving k = some ([],m.joined arriving k) := by
  have hrun := Setup.acceptTurns_length arriving (m.called k).2
  rw [hlen] at hrun
  exact hrun

/-- Every node returns from both of its loops, in whatever order its connections arrive,
and none is left waiting. -/
def Completes (m : Mesh) : Prop := ∃ connected : Fin m.rows.length → UInt32 × Setup,
  (∀ k, m.connback k = .ok (connected k)) ∧ ∀ arriving : Fin m.rows.length → List Link,
    (∀ k, (arriving k).Perm (madeTo connected k)) → ∃ final : Fin m.rows.length → Setup,
      (∀ k, m.acceptloop connected (arriving k) k = some ([],final k)) ∧ m.Full connected final

theorem full_mesh (h : m.Listed) : m.Completes := by
  refine ⟨m.called,h.connback_eq,fun arriving hperm => ?_⟩
  have hlen : ∀ k, (arriving k).length = m.rows.length - 1 - k := fun k =>
    (hperm k).length_eq.trans (h.length_madeTo k)
  refine ⟨fun k => m.joined (arriving k) k,fun k => acceptloop_eq ?_,?_,h.count_socks,?_,?_,?_⟩
  · rw [hlen,h.accepts_eq]
  · exact h.made_pairs
  · intro k
    rw [h.accepts_eq,h.length_madeTo]
  · intro k
    have hk := k.isLt
    have hids := m.lt_ids k
    simp only [joined,called,List.length_append,List.length_map,List.length_take_of_le hids.le,hlen]
    omega
  · intro i j hij
    have hne : m.idAt i ≠ 0 := h.nonzero _ (List.get_mem _ _)
    refine ⟨⟨⟨m.idAt j,m.idAt i⟩,m.idAt j,m.idAt i⟩,⟨⟨m.idAt j,m.idAt i⟩,m.idAt i,0⟩,hne,
      HandlerThread.sendsFirst_of_ne hne,rfl,HandlerThread.waits_of_zero rfl,fun k => ?_⟩
    rw [joined,List.filter_append,h.filter_called hij,h.filter_accepted hij k (hperm k)]
    by_cases hj : k = j
    · have hi : k ≠ i := fun hi => hij.ne (hi.symm.trans hj)
      rw [if_pos hj,if_pos hj,if_neg hi,List.append_nil]
    · rw [if_neg hj,if_neg hj,List.nil_append]

/-- Three nodes whose first addresses do not answer. -/
def trio : Mesh where
  rows := [⟨1001,"localhost","6001",true⟩,⟨1002,"localhost","6002",false⟩,⟨1003,"localhost","6003",false⟩]
  node k := ⟨1001 + k.val,Handler.demo.session.ost,[]⟩
  dial _ _ := some [.refused,.connected]
  disk _ := [some 7]

theorem full_mesh_three : trio.Completes :=
  full_mesh
    { distinct := by decide
      nonzero := by decide
      int := by decide
      own := by decide
      reach := fun _ _ _ => ⟨_,rfl,1,[],rfl⟩ }

end Mesh

end BTRx
