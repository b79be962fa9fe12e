import BTRx.Base.Transition
import BTRx.Handler.Bounds
import BTRx.Handler.Receive

/-! # The loop of cli_handler

An iteration peeks at the length prefix. Its size decides between the end of the stream,
the branch for timeouts and a packet. Between two iterations other threads change the
store and the neighbour map, in which they only add neighbours. The exit path behind the
loop is a step of its own.
-/
namespace BTRx
open Memory ByteSet LittleEndian Transition

/-- What an iteration finds on its socket: the result of the peek, `none` where `recv`
returns -1, and the packet behind a size that is not zero. -/
structure Incoming where
  peek : Option Bytes
  pkt : PktMsg
  junk : Bytes

/-- The peek asks for four bytes. -/
def Incoming.Peeked (i : Incoming) : Prop := ∀ got, i.peek = some got → got.length ≤ 4

/-- The size that `rcv_sz` stores sends the loop into its timeout branch. -/
def Incoming.TakesTimeout (i : Incoming) : Prop := rcvSz i.peek = .ok (some 0)

/-- The loop receives a packet. -/
def Incoming.TakesPacket (i : Incoming) : Prop := ∃ sz, rcvSz i.peek = .ok (some sz) ∧ sz ≠ 0

/-- One iteration of the loop; the second value is whether it goes on. -/
def Session.iteration (i : Incoming) (s : Session) : Except Fault (Session × Bool) := do
  match ← rcvSz i.peek with
  | none => return (s,false)
  | some sz =>
    if sz = 0 then return s.timeout
    let s ← s.handle i.pkt i.junk
    return (s,true)

inductive Mode
  | looping
  | left
  | closed
  deriving DecidableEq

/-- A call of `cli_handler`; its socket is closed in the last mode. -/
structure Handler where
  session : Session
  mode : Mode

inductive HandlerAct
  | recv (i : Incoming)
  | finish

/-- A step of the handler on the store and the map that other threads have left. -/
structure Visit where
  ost : ObjStore
  nmap : NbrMap
  act : HandlerAct

namespace Handler

def new (ost : ObjStore) (nmap : NbrMap) (peeridSelf peeridPeer : ℤ) : Handler :=
  ⟨Session.start ⟨ost,nmap,Conn.new peeridSelf peeridPeer,[]⟩,.looping⟩

/-- The connection with what is shared as others have left it. -/
def shared (h : Handler) (v : Visit) : Session := { h.session with ost := v.ost, nmap := v.nmap }

/-- An iteration, or the exit path: `nbr->done = true` and `close(sock)`. -/
def exec (h : Handler) (v : Visit) : Except Fault Handler :=
  match v.act with
  | .recv i => do
    let (s,more) ← (h.shared v).iteration i
    return ⟨s,if more then .looping else .left⟩
  | .finish => do
    let s ← (h.shared v).leave
    return ⟨s,.closed⟩

/-- The step is the next one, and no neighbour has been removed. -/
structure Enabled (h : Handler) (v : Visit) : Prop where
  mode : match v.act with
    | .recv i => h.mode = .looping ∧ i.Peeked
    | .finish => h.mode = .left
  grown : h.session.nmap.nbrs.length ≤ v.nmap.nbrs.length

def Step (h : Handler) (v : Visit) (h' : Handler) : Prop := h.Enabled v ∧ h.exec v = .ok h'

/-- Steps with the states before them, newest first. -/
abbrev Hist := List (Handler × Visit)

end Handler

/-! ## What an iteration sees -/

theorem ofLE_eq_zero {bs : Bytes} : ofLE bs = 0 ↔ ∀ b ∈ bs, b = 0 := by
  induction bs with
  | nil => simp [ofLE]
  | cons b bs ih =>
    rw [List.forall_mem_cons,← ih,ofLE,Nat.add_eq_zero_iff,← UInt8.toNat_inj]
    simp

theorem rcvSz_none : rcvSz none = .error .exit := rfl

theorem rcvSz_nil : rcvSz (some []) = .ok none := rfl

/-- A peek of up to four bytes is never taken for the number `EWOULDBLOCK`. -/
theorem rcvSz_some {got : Bytes} (hlen : got.length ≤ 4) (hne : got ≠ []) :
    rcvSz (some got) = .ok (some (ofLE (got ++ List.replicate (4 - got.length) 0))) := by
  have h11 : ¬ got.length = ewouldblock := by
    unfold ewouldblock
    omega
  simp only [rcvSz,if_neg h11,if_neg hne]

/-- The timeout branch is taken on zeros and on nothing else. -/
theorem Incoming.takesTimeout_iff {i : Incoming} (h : i.Peeked) :
    i.TakesTimeout ↔ ∃ got, i.peek = some got ∧ got ≠ [] ∧ ∀ b ∈ got, b = 0 := by
  unfold Incoming.TakesTimeout
  cases hp : i.peek with
  | none => simp [rcvSz_none]
  | some got =>
    by_cases hne : got = []
    · simp [hne,rcvSz_nil]
    · rw [rcvSz_some (h got hp) hne]
      have hzero : ofLE (got ++ List.replicate (4 - got.length) 0) = 0 ↔ ∀ b ∈ got, b = 0 := by
        rw [ofLE_append,ofLE_zeros,Nat.mul_zero,Nat.add_zero,ofLE_eq_zero]
      simp [hzero,hne]

namespace Session
variable {s s' : Session} {i : Incoming} {pkt : PktMsg} {junk : Bytes} {f : Fault}

theorem iteration_timeout (h : i.TakesTimeout) : s.iteration i = .ok s.timeout := by
  unfold Incoming.TakesTimeout at h
  rw [iteration,h]
  rfl

theorem iteration_packet (h : i.TakesPacket) :
    s.iteration i = (s.handle i.pkt i.junk).map fun s => (s,true) := by
  obtain ⟨sz,hsz,hne⟩ := h
  rw [iteration,hsz]
  simp only [Outcome.ok_bind,if_neg hne]
  cases s.handle i.pkt i.junk <;> rfl

/-- The four kinds of iterations. -/
theorem iteration_cases (s : Session) (i : Incoming) : i.TakesTimeout ∨ i.TakesPacket ∨
    rcvSz i.peek = .ok none ∧ s.iteration i = .ok (s,false) ∨
    ∃ f, rcvSz i.peek = .error f ∧ s.iteration i = .error f := by
  unfold Incoming.TakesTimeout Incoming.TakesPacket iteration
  cases rcvSz i.peek with
  | error f => exact Or.inr (Or.inr (Or.inr ⟨f,rfl,rfl⟩))
  | ok r =>
    cases r with
    | none => exact Or.inr (Or.inr (Or.inl ⟨rfl,rfl⟩))
    | some sz =>
      by_cases hz : sz = 0
      · subst hz
        exact Or.inl rfl
      · exact Or.inr (Or.inl ⟨sz,rfl,hz⟩)

/-- The timeout branch repeats all requests, announces pieces every second time, and ends
the loop the fifth time. -/
theorem timeout_spec (s : Session) : s.timeout =
    ({ s with
      conn := { s.conn with ntimeouts := s.conn.ntimeouts + 1 }
      out := s.out ++ (s.conn.reqs.keys.map requestPkt ++
        if (s.conn.ntimeouts + 1) % 2 = 0 then haves s.ost s.conn.bfieldPeer else []) },
      decide (s.conn.ntimeouts + 1 ≠ 5)) := by
  simp only [timeout,sendRequests,sendHaves_eq]
  by_cases h : (s.conn.ntimeouts + 1) % 2 = 0
  · have h5 : s.conn.ntimeouts + 1 ≠ 5 := by omega
    simp only [if_pos h,List.append_assoc,decide_eq_true h5]
  · simp only [if_neg h,List.append_nil]
    rfl

/-- A packet does not touch the count of timeouts. -/
theorem dispatch_ntimeouts (h : s.dispatch pkt junk = .ok s') :
    s'.conn.ntimeouts = s.conn.ntimeouts := by
  have hkeep := h
  unfold dispatch at h
  cases hty : pkt.type with
  | Handshake =>
    simp only [hty] at h
    cases h
    split <;> rfl
  | Choke =>
    simp only [hty] at h
    cases h
    rfl
  | UnChoke =>
    simp only [hty] at h
    cases h
    rfl
  | Interested =>
    simp only [hty] at h
    obtain ⟨_,_,h⟩ := Outcome.bind_eq_ok.mp h
    cases h
    rfl
  | NotInterested =>
    simp only [hty] at h
    obtain ⟨_,_,h⟩ := Outcome.bind_eq_ok.mp h
    cases h
    rfl
  | Have =>
    simp only [hty] at h
    cases h
    unfold handleHave
    split <;> rfl
  | BitField =>
    rw [dispatch_bitField s hty,recvBitField_eq] at hkeep
    obtain ⟨_,_,hkeep⟩ := Outcome.bind_eq_ok.mp hkeep
    cases hkeep
    rw [(answerBitField_spec _ _).2.2.1]
  | Request =>
    obtain ⟨k,nbr,_,s₁,h₁,rfl⟩ := dispatch_request hty hkeep
    obtain ⟨_,_,_,hconn,_⟩ := answerRequest_sent h₁
    have hsame : s₁.conn.ntimeouts = s.conn.ntimeouts := by rw [hconn]; rfl
    split
    · exact hsame
    · exact hsame
  | Piece =>
    simp only [hty] at h
    obtain ⟨_,_,_,_,rfl,_⟩ := handlePiece_eq_ok h
    rfl
  | Unnamed c hc =>
    simp only [hty] at h
    cases h

theorem handle_ntimeouts (h : s.handle pkt junk = .ok s') :
    s'.conn.ntimeouts = s.conn.ntimeouts := by
  obtain ⟨s₁,h₁,h⟩ := Outcome.bind_eq_ok.mp h
  obtain ⟨new,rfl,_⟩ := chokeStatusCheck_eq_ok h₁
  exact (dispatch_ntimeouts h :)

end Session

/-! ## Timeouts -/

namespace Handler

instance (i : Incoming) : Decidable i.TakesTimeout :=
  inferInstanceAs (Decidable (rcvSz i.peek = .ok (some 0)))

/-- The timeouts that the loop has counted. -/
def timeouts (hist : Hist) : ℕ := hist.countP fun e => match e.2.act with
  | .recv i => decide i.TakesTimeout
  | .finish => false

/-- A timeout is recognised and survived, nothing else is taken for one, and the branch
does what its count asks for. -/
structure TimeoutExact (hist : Hist) (h : Handler) (v : Visit) (i : Incoming) : Prop where
  recognised : i.TakesTimeout ↔ i.peek = none
  survived : i.peek = none → ∃ h', h.exec v = .ok h'
  answered : i.TakesTimeout → ∃ h', h.exec v = .ok h' ∧
    h'.session.out = h.session.out ++ (h.session.conn.reqs.keys.map Session.requestPkt ++
      if (timeouts hist + 1) % 2 = 0 then Session.haves v.ost h.session.conn.bfieldPeer else []) ∧
    (h'.mode = .left ↔ timeouts hist + 1 = 5)

variable {ost : ObjStore} {nmap : NbrMap} {peeridSelf peeridPeer : ℤ} {hist : Hist} {h : Handler}

/-- The counter of the loop counts its timeouts. -/
theorem run_ntimeouts (run : Run Step (new ost nmap peeridSelf peeridPeer) hist h) :
    h.session.conn.ntimeouts = timeouts hist := by
  refine run.always (P := fun hist h => h.session.conn.ntimeouts = timeouts hist) ?_ ?_
  · simp only [new,Session.start]
    split <;> rfl
  · rintro hist h v h' hn ⟨_,hx⟩
    have hcons : timeouts ((h,v) :: hist) = timeouts hist + match v.act with
        | .recv i => if i.TakesTimeout then 1 else 0
        | .finish => 0 := by
      rw [timeouts,List.countP_cons]
      cases v.act with
      | recv i => simp [timeouts]
      | finish => simp [timeouts]
    rw [hcons]
    unfold exec at hx
    cases hact : v.act with
    | finish =>
      simp only [hact] at hx
      obtain ⟨s,hs,hx⟩ := Outcome.bind_eq_ok.mp hx
      cases hx
      obtain ⟨_,_,hs⟩ := Outcome.bind_eq_ok.mp hs
      cases hs
      exact hn
    | recv i =>
      simp only [hact] at hx
      obtain ⟨⟨s,more⟩,hs,hx⟩ := Outcome.bind_eq_ok.mp hx
      cases hx
      have hshared : (h.shared v).conn.ntimeouts = timeouts hist := hn
      by_cases ht : i.TakesTimeout
      · rw [Session.iteration_timeout ht,Session.timeout_spec] at hs
        cases hs
        simp only [if_pos ht,hshared]
      · simp only [if_neg ht,Nat.add_zero]
        rcases (h.shared v).iteration_cases i with ht' | hp | ⟨_,he⟩ | ⟨f,_,he⟩
        · exact absurd ht' ht
        · rw [Session.iteration_packet hp] at hs
          cases hh : (h.shared v).handle i.pkt i.junk with
          | error f =>
            rw [hh] at hs
            cases hs
          | ok t =>
            rw [hh] at hs
            cases hs
            exact (Session.handle_ntimeouts hh).trans hshared
        · rw [he] at hs
          cases hs
          exact hshared
        · rw [he] at hs
          cases hs

/-- What the branch does, whatever it is that the loop has taken for a timeout. -/
theorem timeout_answered (run : Run Step (new ost nmap peeridSelf peeridPeer) hist h) {v : Visit}
    {i : Incoming} (hact : v.act = .recv i) (ht : i.TakesTimeout) : ∃ h', h.exec v = .ok h' ∧
      h'.session.out = h.session.out ++ (h.session.conn.reqs.keys.map Session.requestPkt ++
        if (timeouts hist + 1) % 2 = 0 then Session.haves v.ost h.session.conn.bfieldPeer else []) ∧
      (h'.mode = .left ↔ timeouts hist + 1 = 5) := by
  rw [← run_ntimeouts run]
  simp only [exec,hact,Session.iteration_timeout ht,Session.timeout_spec,Outcome.ok_bind,
    Outcome.pure_eq,Except.ok.injEq,exists_eq_left',shared]
  refine ⟨trivial,?_⟩
  by_cases h5 : h.session.conn.ntimeouts + 1 = 5
  · simp [h5]
  · simp [h5]

/-- In every run and for every outcome of the next peek: timeouts are treated as such
exactly when none happens and the peer sends no prefix of zeros. -/
theorem timeoutExact_iff (run : Run Step (new ost nmap peeridSelf peeridPeer) hist h) {v : Visit}
    {i : Incoming} (hact : v.act = .recv i) (hv : h.Enabled v) : TimeoutExact hist h v i ↔
      i.peek ≠ none ∧ ¬ ∃ got, i.peek = some got ∧ got ≠ [] ∧ ∀ b ∈ got, b = 0 := by
  have hpeek : i.Peeked := by
    have hm := hv.mode
    rw [hact] at hm
    exact hm.2
  have hzero := Incoming.takesTimeout_iff hpeek
  have hnone : i.peek = none → ¬ i.TakesTimeout := by
    intro hp ht
    obtain ⟨got,hgot,_⟩ := hzero.mp ht
    rw [hp] at hgot
    cases hgot
  constructor
  · intro ht
    have hp : i.peek ≠ none := fun hp => hnone hp (ht.recognised.mpr hp)
    exact ⟨hp,fun hz => hp (ht.recognised.mp (hzero.mpr hz))⟩
  · rintro ⟨hp,hz⟩
    have ht : ¬ i.TakesTimeout := fun ht => hz (hzero.mp ht)
    exact ⟨⟨fun h => absurd h ht,fun h => absurd h hp⟩,fun h => absurd h hp,timeout_answered run hact⟩

/-- An accepted connection of a node with one piece. -/
def demo : Handler := new
  { fsz := 1
    pcsz := 1
    npcs := 1
    cache := ⟨∅,[],[],⟨[some 7],0⟩,1,1,1⟩
    bfield := ⟨[1]⟩ } (NbrMap.new 2 1) 1 0

/-- A step that no other thread comes before. -/
def alone (h : Handler) (act : HandlerAct) : Visit := ⟨h.session.ost,h.session.nmap,act⟩

def peeked (peek : Option Bytes) (pkt : PktMsg) : HandlerAct := .recv ⟨peek,pkt,[]⟩

theorem enabled_recv {h : Handler} (hm : h.mode = .looping) {i : Incoming} (hp : i.Peeked) :
    h.Enabled (h.alone (.recv i)) := ⟨⟨hm,hp⟩,le_rfl⟩

theorem enabled_finish {h : Handler} (hm : h.mode = .left) : h.Enabled (h.alone .finish) :=
  ⟨hm,le_rfl⟩

/-- A prefix of zeros is counted as a timeout, and then the length of a Choke packet is seen. -/
theorem timeoutExact_choke : ∃ v h, Step demo v h ∧ timeouts [(demo,v)] = 1 ∧
    TimeoutExact [(demo,v)] h (h.alone (peeked (some [15,0,0,0]) { type := .Choke }))
      ⟨some [15,0,0,0],{ type := .Choke },[]⟩ := by
  have hpeeked : ∀ got : Bytes, got.length ≤ 4 → Incoming.Peeked ⟨some got,{ type := .Choke },[]⟩ := by
    rintro got hlen _ ⟨⟩
    exact hlen
  have hfirst : Step demo (demo.alone (peeked (some [0,0,0,0]) { type := .Choke })) _ :=
    ⟨enabled_recv rfl (hpeeked _ (by decide)),rfl⟩
  refine ⟨_,_,hfirst,by decide,?_⟩
  refine (timeoutExact_iff (.tail .refl hfirst) rfl
    (enabled_recv rfl (hpeeked [15,0,0,0] (by decide)))).mpr ⟨nofun,?_⟩
  rintro ⟨got,hgot,_,hz⟩
  cases hgot
  exact absurd (hz 15 List.mem_cons_self) (by decide)

/-- An idle connection ends the process at its first timeout. -/
theorem timeout_not_exact : ∃ v i, v.act = .recv i ∧ demo.Enabled v ∧
    ¬ TimeoutExact [] demo v i := by
  refine ⟨demo.alone (peeked none { type := .Choke }),_,rfl,enabled_recv rfl nofun,?_⟩
  intro h
  obtain ⟨h',hx⟩ := h.survived rfl
  cases hx

end Handler

end BTRx
