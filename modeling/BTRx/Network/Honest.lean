import BTRx.Network.Network
import BTRx.Node.Requests
import BTRx.ObjStore.Access

/-! # Between honest nodes a request is for a piece that is held

What a thread knows of its peer comes from one BitField: `bfieldPeer`, `diff` and `reqs`
only hold pieces that the peer holds, and so do the requests on their way. That `diff` is
indexed by piece numbers needs a count: over each link, each end sends one BitField at
most, because only the accepting end answers one with its own.
-/
namespace BTRx
open ByteSet Memory LittleEndian Transition
open Session

def isBitField (m : PktMsg) : Bool := m.type = .BitField

/-- Whether a thread has begun to handle a BitField. -/
def Thread.seen (t : Thread) : ℕ :=
  match t.phase with
  | .diffing => 1
  | .marking _ _ => 1
  | _ => if t.conn.diff = [] then 0 else 1

def Thread.started (t : Thread) : ℕ := if t.phase = .start then 0 else 1

/-- The number of BitFields an end may have sent. -/
def Thread.allowance (acceptor : Bool) (t : Thread) : ℕ := if acceptor then t.seen else t.started

/-- What holds of a single thread at an end. -/
structure ThreadRole (acceptor : Bool) (t : Thread) : Prop where
  todo : t.TodoOk
  fresh : t.phase = .start → t.conn.diff = []
  client : t.phase ≠ .start → t.conn.client = acceptor
  diffing : t.phase = .diffing → t.conn.diff = []
  marking : ∀ todo ret, t.phase = .marking todo ret → t.conn.diff ≠ []

/-- What a thread knows of the pieces of its peer. -/
structure Knows (held : ℕ → Prop) (t : Thread) : Prop where
  peer : ∀ p, bitAt t.conn.bfieldPeer p = true → held p
  diff : ∀ p, bitAt t.conn.diff p = true → held p
  reqs : ∀ q ∈ t.conn.reqs, held q.toNat

theorem Thread.seen_le (t : Thread) : t.seen ≤ 1 := by
  unfold Thread.seen
  split
  · exact le_rfl
  · exact le_rfl
  · split <;> omega

theorem Thread.allowance_le (acceptor : Bool) (t : Thread) : t.allowance acceptor ≤ 1 := by
  cases acceptor with
  | true => exact t.seen_le
  | false =>
    simp only [allowance,started,Bool.false_eq_true,if_false]
    split <;> omega

theorem Thread.diff_of_seen {t : Thread} (h : t.seen = 0) : t.conn.diff = [] := by
  unfold Thread.seen at h
  split at h
  · cases h
  · cases h
  · split at h
    · assumption
    · cases h

theorem Knows.mono {held held' : ℕ → Prop} {t : Thread} (h : Knows held t)
    (hm : ∀ p, held p → held' p) : Knows held' t :=
  ⟨fun p hp => hm p (h.peer p hp),fun p hp => hm p (h.diff p hp),fun q hq => hm _ (h.reqs q hq)⟩

namespace Session
variable {s s' : Session} {ph ph' : Phase} {ev : Event}

/-- The BitField that an event brings. -/
def arrivals : Event → ℕ
  | .packet pkt _ => if isBitField pkt then 1 else 0
  | _ => 0

theorem arrivals_eq (ev : Event) : arrivals ev = ev.taken.countP isBitField := by
  cases ev with
  | packet pkt junk => simp [arrivals,Event.taken,List.countP_cons]
  | _ => rfl

/-- BitFields among requests and the like. -/
theorem asksOnly_countP {reqs : Reqs} {new : List PktMsg} (h : AsksOnly reqs new) :
    new.countP isBitField = 0 := by
  rw [List.countP_eq_zero]
  intro m hm
  simpa [isBitField] using (h m hm).1

theorem Moved.role {acceptor : Bool} (hm : Moved s ph ev s' ph')
    (h : ThreadRole acceptor ⟨s.conn,ph⟩) (hown : 0 < s.ost.bfield.bfield.length)
    (hmake : ∀ self peer, ev = .makeThread self peer → decide (peer = 0) = acceptor)
    (hseen : 0 < arrivals ev → Thread.seen ⟨s.conn,ph⟩ = 0) : ThreadRole acceptor ⟨s'.conn,ph'⟩ := by
  have htodo := hm.todoOk h.todo
  cases hm with
  | @made self peer => exact ⟨htodo,by simp,fun _ => hmake self peer rfl,by simp,by simp⟩
  | kept _ hph hk =>
    have hclient : s.conn.client = acceptor := h.client (by simp)
    rcases hph with rfl | rfl
    · exact ⟨htodo,by simp,fun _ => hk.same.client.trans hclient,by simp,by simp⟩
    · exact ⟨htodo,by simp,fun _ => hk.same.client.trans hclient,by simp,by simp⟩
  | stored _ ht =>
    have hclient : s.conn.client = acceptor := h.client (by simp)
    exact ⟨htodo,by simp,fun _ => ht.same.client.trans hclient,by simp,by simp⟩
  | @received pkt junk new hb =>
    have hd : s.conn.diff = [] := Thread.diff_of_seen (hseen (by simp [arrivals,isBitField,hb]))
    exact ⟨htodo,by simp,fun _ => h.client (by simp),fun _ => hd,by simp⟩
  | @compared hle diff hdiff =>
    refine ⟨htodo,by simp,fun _ => h.client (by simp),by simp,fun _ _ _ => ?_⟩
    have hlen : diff.length = s.conn.diff.length + s.ost.bfield.bfield.length := by
      simp only [hdiff,newBits,List.length_append,List.length_zipWith]
      omega
    intro hnil
    replace hnil : diff = [] := hnil
    rw [hnil,List.length_nil] at hlen
    omega
  | @marked ij todo ret e he =>
    obtain ⟨hi,hj⟩ := h.todo.2 _ List.mem_cons_self
    have hlen := (Earmarking.turn_length hi hj he).1
    have hne : s.conn.diff ≠ [] := h.marking _ _ rfl
    refine ⟨htodo,by simp,fun _ => h.client (by simp),by simp,fun _ _ _ hnil => hne ?_⟩
    replace hnil : e.diff = [] := hnil
    rw [hnil,List.length_nil] at hlen
    exact List.length_eq_zero_iff.mp hlen.symm
  | @answered ret =>
    refine ⟨htodo,by simp,fun _ => ?_,by simp,by simp⟩
    rw [(answerBitField_spec ret s).2.2.1]
    exact h.client (by simp)

/-- A thread begins to handle a BitField only when one arrives. -/
theorem Moved.seen_le {acceptor : Bool} (hm : Moved s ph ev s' ph')
    (h : ThreadRole acceptor ⟨s.conn,ph⟩) :
    Thread.seen ⟨s.conn,ph⟩ ≤ Thread.seen ⟨s'.conn,ph'⟩ ∧
      Thread.seen ⟨s'.conn,ph'⟩ ≤ Thread.seen ⟨s.conn,ph⟩ + arrivals ev := by
  have hle := Thread.seen_le ⟨s'.conn,ph'⟩
  cases hm with
  | made =>
    have hd : s.conn.diff = [] := h.fresh rfl
    simp [Thread.seen,Conn.new,hd]
  | kept _ hph hk =>
    have hsame : Thread.seen ⟨s'.conn,ph'⟩ = Thread.seen ⟨s.conn,.ready⟩ := by
      rcases hph with rfl | rfl <;> simp only [Thread.seen,hk.diff]
    omega
  | stored _ ht =>
    have hsame : Thread.seen ⟨s'.conn,.ready⟩ = Thread.seen ⟨s.conn,.ready⟩ := by
      simp only [Thread.seen,ht.diff]
    omega
  | @received pkt junk new hb =>
    have h1 : arrivals (.packet pkt junk) = 1 := by simp [arrivals,isBitField,hb]
    have h2 := Thread.seen_le ⟨s.conn,.ready⟩
    have h3 : Thread.seen ⟨{ s.conn with bfieldPeer := pkt.bfield.bfield },.diffing⟩ = 1 := rfl
    rw [h1]
    simp only at h3 ⊢
    omega
  | compared => simp [Thread.seen]
  | marked => simp [Thread.seen]
  | @answered ret =>
    have hne : s.conn.diff ≠ [] := h.marking _ _ rfl
    have hd : (s.answerBitField ret).conn.diff = s.conn.diff := by
      rw [(answerBitField_spec ret s).2.2.1]
    simp [Thread.seen,hd,hne]

/-- A BitField is sent within the allowance, which a new BitField uses up. -/
theorem Moved.allowance {acceptor : Bool} (hm : Moved s ph ev s' ph')
    (h : ThreadRole acceptor ⟨s.conn,ph⟩) (hout : s.out = [])
    (hmake : ∀ self peer, ev = .makeThread self peer → decide (peer = 0) = acceptor)
    (hseen : 0 < arrivals ev → Thread.seen ⟨s.conn,ph⟩ = 0) :
    Thread.allowance acceptor ⟨s.conn,ph⟩ + s'.out.countP isBitField ≤
      Thread.allowance acceptor ⟨s'.conn,ph'⟩ := by
  have hle := (hm.seen_le h).1
  have hsilent : s'.out.countP isBitField = 0 → ph' ≠ .start →
      Thread.allowance acceptor ⟨s.conn,ph⟩ + s'.out.countP isBitField ≤
        Thread.allowance acceptor ⟨s'.conn,ph'⟩ := by
    intro hz hph
    cases acceptor with
    | true => simpa [Thread.allowance,hz] using hle
    | false =>
      simp only [Thread.allowance,Thread.started,hz,hph,Bool.false_eq_true,if_false]
      split <;> omega
  cases hm with
  | @made self peer new hnew =>
    have hcount : (s.out ++ new).countP isBitField = if decide (peer ≠ 0) then 1 else 0 := by
      rw [hout,List.nil_append]
      exact hnew.2
    have hrole := hmake self peer rfl
    cases acceptor with
    | true =>
      refine hsilent ?_ nofun
      rw [hcount]
      simpa using hrole
    | false =>
      have hne : peer ≠ 0 := by simpa using hrole
      simp only [hcount,Thread.allowance,Thread.started]
      simp [hne]
  | kept _ hph hk =>
    obtain ⟨new,heq,hasks⟩ := hk.sent
    refine hsilent ?_ ?_
    · rw [heq,hout,List.nil_append]
      exact asksOnly_countP hasks
    · rcases hph with rfl | rfl
      · exact nofun
      · exact nofun
  | stored _ ht =>
    obtain ⟨new,heq,hasks⟩ := ht.sent
    refine hsilent ?_ nofun
    rw [heq,hout,List.nil_append]
    exact asksOnly_countP hasks
  | @received pkt junk new hb hnew =>
    have hcount : (s.out ++ new).countP isBitField = if s.conn.client then 1 else 0 := by
      rw [hout,List.nil_append]
      exact hnew.2
    have hclient : s.conn.client = acceptor := h.client nofun
    have hz := hseen (by simp [arrivals,isBitField,hb])
    cases acceptor with
    | true =>
      simp only [hcount,hclient,Thread.allowance,if_true]
      rw [hz]
      exact le_rfl
    | false =>
      refine hsilent ?_ nofun
      rw [hcount,hclient]
      rfl
  | compared => exact hsilent (by simp [hout]) nofun
  | marked => exact hsilent (by simp [hout]) nofun
  | @answered ret =>
    obtain ⟨_,_,_,new,heq,hasks⟩ := answerBitField_spec ret s
    refine hsilent ?_ nofun
    rw [heq,hout,List.nil_append]
    exact asksOnly_countP hasks

/-- What a thread knows of its peer grows from BitFields alone. -/
theorem Moved.knows {acceptor : Bool} {held : ℕ → Prop} (hm : Moved s ph ev s' ph')
    (h : ThreadRole acceptor ⟨s.conn,ph⟩) (hk : Knows held ⟨s.conn,ph⟩)
    (hlt : ∀ p, held p → p < 2 ^ 32)
    (harr : ∀ pkt junk, ev = .packet pkt junk → pkt.type = .BitField →
      ∀ p, bitAt pkt.bfield.bfield p = true → held p) : Knows held ⟨s'.conn,ph'⟩ := by
  cases hm with
  | made => exact ⟨by simp [Conn.new],by simp [Conn.new],by simp [Conn.new]⟩
  | kept _ _ hkept =>
    exact ⟨by rw [hkept.peer]; exact hk.peer,by rw [hkept.diff]; exact hk.diff,
      by rw [hkept.reqs]; exact hk.reqs⟩
  | stored hp ht =>
    refine ⟨by rw [ht.peer]; exact hk.peer,by rw [ht.diff]; exact hk.diff,?_⟩
    intro q hq
    rw [ht.reqs,if_pos hp,AList.mem_erase] at hq
    exact hk.reqs q hq.2
  | received hb => exact ⟨harr _ _ rfl hb,hk.diff,hk.reqs⟩
  | @compared hle diff hdiff =>
    have hempty : s.conn.diff = [] := h.diffing rfl
    rw [hempty] at hdiff
    refine ⟨hk.peer,?_,hk.reqs⟩
    intro p hp
    simp only [hdiff,bitAt_newBits hle,Bool.and_eq_true] at hp
    exact hk.peer p hp.1.2
  | @marked ij todo ret e he =>
    obtain ⟨hi,hj⟩ := h.todo.2 _ List.mem_cons_self
    refine ⟨hk.peer,?_,hk.reqs⟩
    intro p hp
    exact hk.diff p ((Earmarking.turn_diff hi hj he p).2 hp)
  | @answered ret =>
    have hconn := (answerBitField_spec ret s).2.2.1
    refine ⟨by rw [hconn]; exact hk.peer,by rw [hconn]; exact hk.diff,?_⟩
    intro q hq
    rcases mem_answerBitField_reqs hq with hq | ⟨p,hp,rfl⟩
    · exact hk.reqs q hq
    · have hheld := hk.diff p hp
      rw [UInt32.toNat_ofNat_of_lt' (hlt p hheld)]
      exact hheld

/-- A BitField that is sent is the own bitfield. -/
theorem Moved.bitField_sent (hm : Moved s ph ev s' ph') (hout : s.out = []) {m : PktMsg}
    (hmem : m ∈ s'.out) (hb : m.type = .BitField) : m.bfield.bfield = s.ost.bfield.bfield := by
  rcases hm.sent hout with ⟨_,hnew⟩ | ⟨_,hasks⟩ | ⟨_,_,hasks⟩
  · exact (hnew.1 m hmem).2 hb
  · exact absurd hb (hasks m hmem).1
  · exact absurd hb (hasks m hmem).1

end Session

namespace Network
variable {host : End → ℕ} {len : ℕ} {net net' : Network} {a : NetAct} {e : End} {ev : Event}
  {rest out : List PktMsg} {r : Session × Phase}

/-- The invariant of the network; `len` is the length of every own bitfield. -/
structure Honest (host : End → ℕ) (len : ℕ) (net : Network) : Prop where
  length : ∀ i, (net.nodes i).ost.bfield.bfield.length = len
  role : ∀ e, ThreadRole e.acceptor (net.thread host e)
  knows : ∀ e, Knows (net.Held host e.peer) (net.thread host e)
  bitField : ∀ e, ∀ m ∈ net.chan e, m.type = .BitField → ∀ p, bitAt m.bfield.bfield p = true →
    net.Held host e p
  asked : ∀ e, ∀ m ∈ net.chan e, m.type = .Request → net.Held host e.peer m.req.pcno.toNat
  count : ∀ e, (net.chan e).countP isBitField + (net.thread host e.peer).seen ≤
    (net.thread host e).allowance e.acceptor

theorem honest_init {fsz pcsz : ℕ} (h₀ : net.Initial fsz pcsz) :
    Honest host ((npcsOf fsz pcsz + 7) / 8) net := by
  have hthread : ∀ e, net.thread host e = Thread.new := fun e => (h₀.fresh (host e)).threads e
  refine ⟨fun i => ?_,fun e => ?_,fun e => ?_,fun e m hm => ?_,fun e m hm => ?_,fun e => ?_⟩
  · rw [(h₀.fresh i).own,h₀.npcs]
  · rw [hthread]
    exact ⟨⟨List.nodup_nil,fun ij hij => absurd hij List.not_mem_nil⟩,fun _ => rfl,
      fun h => absurd rfl h,nofun,nofun⟩
  · rw [hthread]
    exact ⟨by simp [Thread.new,Conn.new],by simp [Thread.new,Conn.new],by simp [Thread.new,Conn.new]⟩
  · rw [h₀.chan] at hm
    cases hm
  · rw [h₀.chan] at hm
    cases hm
  · rw [h₀.chan,hthread]
    simp [Thread.new,Thread.seen,Conn.new]

theorem Played.arrivals (h : Played host net a out net' e ev r) :
    (net.chan e.peer).countP isBitField = Session.arrivals ev + (net'.chan e.peer).countP isBitField := by
  rw [h.chan.received,List.countP_append,arrivals_eq]

theorem Played.packet_mem {pkt : PktMsg} {junk : Bytes} (h : Played host net a out net' e (.packet pkt junk) r) :
    pkt ∈ net.chan e.peer := by
  rw [h.chan.received]
  exact List.mem_cons_self

/-- What is on a queue after a step was there before or has just been sent. -/
theorem Played.mem_chan (h : Played host net a out net' e ev r) {d : End} {m : PktMsg} (hm : m ∈ net'.chan d) :
    m ∈ net.chan d ∨ d = e ∧ m ∈ r.1.out := by
  by_cases hd : d = e
  · subst hd
    rw [h.sent,List.mem_append] at hm
    exact hm.imp_right fun hm => ⟨rfl,hm⟩
  · by_cases hd' : d = e.peer
    · subst hd'
      rw [h.chan.received]
      exact Or.inl (List.mem_append_right _ hm)
    · rw [h.chan.frame d hd hd'] at hm
      exact Or.inl hm

theorem honest_thread (h : Honest host len net) (hpos : 0 < len) (hsize : 8 * len ≤ 2 ^ 31)
    (hp : Played host net a out net' e ev r) : Honest host len net' := by
  have hm := hp.moved
  have hrole := h.role e
  have hmono : ∀ {d : End} {p : ℕ}, net.Held host d p → net'.Held host d p := hp.keeps
  have hle := Thread.allowance_le e.peer.acceptor (net.thread host e.peer)
  have hcount := h.count e.peer
  rw [End.peer_peer] at hcount
  have hseen : 0 < arrivals ev → Thread.seen ⟨(net.thread host e).conn,(net.thread host e).phase⟩ = 0 := by
    intro harr
    have hc := hp.arrivals
    show (net.thread host e).seen = 0
    omega
  have hlt : ∀ p, net.Held host e.peer p → p < 2 ^ 32 := by
    intro p hheld
    have hlen := h.length (host e.peer)
    have hbit := lt_of_bitAt hheld
    omega
  have hknows : Knows (net'.Held host e.peer) (net'.thread host e) := by
    rw [hp.self]
    refine Knows.mono (hm.knows hrole (h.knows e) hlt ?_) (fun p hheld => hmono hheld)
    rintro pkt junk rfl hb p hbit
    exact h.bitField e.peer pkt hp.packet_mem hb p hbit
  refine ⟨fun i => (hp.own_length i).trans (h.length i),?_,?_,?_,?_,?_⟩
  · intro d
    by_cases hd : d = e
    · subst hd
      rw [hp.self]
      exact hm.role hrole (hpos.trans_eq (h.length (host d)).symm) hp.role hseen
    · rw [hp.other hd]
      exact h.role d
  · intro d
    by_cases hd : d = e
    · subst hd
      exact hknows
    · rw [hp.other hd]
      exact (h.knows d).mono fun p hheld => hmono hheld
  · intro d m hmem hb p hbit
    rcases hp.mem_chan hmem with hmem | ⟨rfl,hmem⟩
    · exact hmono (h.bitField d m hmem hb p hbit)
    · rw [hm.bitField_sent rfl hmem hb] at hbit
      exact hmono hbit
  · intro d m hmem hr
    rcases hp.mem_chan hmem with hmem | ⟨rfl,hmem⟩
    · exact hmono (h.asked d m hmem hr)
    · rcases hm.asks rfl hmem hr with ⟨_,hin⟩ | ⟨_,_,hin⟩
      · exact hmono ((h.knows d).reqs _ hin)
      · have hreqs := hknows.reqs m.req.pcno
        rw [hp.self] at hreqs
        exact hreqs hin
  · intro d
    by_cases hd : d = e
    · subst hd
      have hc := h.count d
      have hallow := hm.allowance hrole rfl hp.role hseen
      rw [hp.self,hp.sent,List.countP_append,hp.other d.peer_ne]
      replace hallow : (net.thread host d).allowance d.acceptor + r.1.out.countP isBitField ≤
        Thread.allowance d.acceptor ⟨r.1.conn,r.2⟩ := hallow
      omega
    · by_cases hd' : d = e.peer
      · subst hd'
        have hc := hp.arrivals
        have hup := (hm.seen_le hrole).2
        rw [End.peer_peer,hp.self,hp.other hd]
        replace hup : Thread.seen ⟨r.1.conn,r.2⟩ ≤ (net.thread host e).seen + arrivals ev := hup
        omega
      · have hne : d.peer ≠ e := fun heq => hd' (by rw [← heq,End.peer_peer])
        rw [hp.chan.frame d hd hd',hp.other hd,hp.other hne]
        exact h.count d

/-- A write to `nbr->choked` touches nothing the invariant speaks of. -/
theorem honest_choke (h : Honest host len net) (i k : ℕ) (choked : Bool) : Honest host len
    { net with nodes := Function.update net.nodes i ((net.nodes i).leaveChoked k choked) } := by
  have hsame := choke_frame i k choked net
  have hthread : ∀ e, Network.thread host
      { net with nodes := Function.update net.nodes i ((net.nodes i).leaveChoked k choked) } e =
      net.thread host e := fun e => congrFun (hsame (host e)).2 e
  have hheld : ∀ e, Network.Held host
      { net with nodes := Function.update net.nodes i ((net.nodes i).leaveChoked k choked) } e =
      net.Held host e := by
    intro e
    funext p
    simp only [Held,(hsame (host e)).1]
  refine ⟨fun j => ?_,fun e => ?_,fun e => ?_,fun e => ?_,fun e => ?_,fun e => ?_⟩
  · simp only [(hsame j).1]
    exact h.length j
  · rw [hthread]
    exact h.role e
  · rw [hthread,hheld]
    exact h.knows e
  · rw [hheld]
    exact h.bitField e
  · rw [hheld]
    exact h.asked e
  · rw [hthread,hthread]
    exact h.count e

/-- Whenever a Request comes next, its piece is held: `get_piece` has only its second
branch, which returns 1 and returns where the cache can serve the piece, and `send_piece`
does not exit. -/
theorem request_held {fsz pcsz : ℕ} {net₀ : Network} {hist : List (Network × NetAct × List PktMsg)}
    (h₀ : net₀.Initial fsz pcsz) (run : Run (ExecStep (Network.exec host)) net₀ hist net)
    {pkt : PktMsg} (hchan : net.chan e.peer = pkt :: rest) (hr : pkt.type = .Request) :
    (net.nodes (host e)).ost.bfield.exists (toInt pkt.req.pcno.toNat) = .ok true ∧
    (net.nodes (host e)).ost.getPiece (toInt pkt.req.pcno.toNat) = (do
      let (buf,cache) ← (net.nodes (host e)).ost.cache.get (toInt pkt.req.pcno.toNat)
      return (1,buf,{ (net.nodes (host e)).ost with cache })) ∧
    (∀ r buf ost, (net.nodes (host e)).ost.getPiece (toInt pkt.req.pcno.toNat) = .ok (r,buf,ost) → r = 1) ∧
    ((net.nodes (host e)).ost.cache.CanGet
        ((net.nodes (host e)).ost.cache.getPos (toInt pkt.req.pcno.toNat)) →
      ∃ buf ost, (net.nodes (host e)).ost.getPiece (toInt pkt.req.pcno.toNat) = .ok (1,buf,ost)) ∧
    ∀ junk, ((net.nodes (host e)).session e).sendPiece pkt.req.pcno junk ≠ .error .exit := by
  have hnpcs : 0 < npcsOf fsz pcsz := npcsOf_pos h₀.fsz_pos h₀.pcsz_pos
  have hbound : npcsOf fsz pcsz < 2 ^ 31 := h₀.npcs 0 ▸ (h₀.fresh 0).npcs
  have hinv : Honest host ((npcsOf fsz pcsz + 7) / 8) net := by
    refine run.preserves (honest_init h₀) ?_
    rintro net ⟨a,out⟩ net' h hx
    rcases exec_played hx with ⟨i,k,choked,_,rfl⟩ | ⟨e,ev,r,hp⟩
    · exact honest_choke h i k choked
    · exact honest_thread h (by omega) (by omega) hp
  have hheld := hinv.asked e.peer pkt (hchan ▸ List.mem_cons_self) hr
  rw [End.peer_peer] at hheld
  have hlen := hinv.length (host e)
  have hlt := lt_of_bitAt hheld
  have hint : toInt pkt.req.pcno.toNat = pkt.req.pcno.toNat := toInt_of_lt (by omega) (by omega)
  have hget := ObjStore.getPiece_of_held hlt hheld
  rw [hint]
  refine ⟨by rw [Bfield.exists_of_lt hlt,hheld],hget,?_,?_,?_⟩
  · intro r buf ost h
    rw [hget] at h
    obtain ⟨_,_,h⟩ := Outcome.bind_eq_ok.mp h
    cases h
    rfl
  · intro hcan
    obtain ⟨buf,cache,hcache⟩ := Cache.get_returns hcan
    rw [hget,hcache]
    exact ⟨buf,_,rfl⟩
  · intro junk h
    unfold sendPiece at h
    simp only [Node.session,hint,hget] at h
    rcases Outcome.bind_eq_error.mp h with h | ⟨⟨r,buf,ost⟩,h,hexit⟩
    · rcases Outcome.bind_eq_error.mp h with h | ⟨_,_,h⟩
      · rcases Cache.get_error h with h | h | h <;> cases h
      · cases h
    · obtain ⟨_,_,h⟩ := Outcome.bind_eq_ok.mp h
      cases h
      cases hexit

/-- Node 0 has accepted the only connection, from node 1. -/
def hostOfTwo (e : End) : ℕ := if e.acceptor then 0 else 1

/-- Two nodes that share a file of one byte, which node 0 holds. -/
def two : Network where
  nodes i :=
    { ost :=
      { fsz := 1
        pcsz := 1
        npcs := 1
        cache := ⟨∅,[],[],⟨[some 7],0⟩,1,1,1⟩
        bfield := ⟨[if i = 0 then 1 else 0]⟩ }
      nmap := NbrMap.new 2 1
      threads := fun _ => Thread.new }
  chan _ := []

/-- Both ends are set up, and the first Request is on its way. -/
def opening : List NetAct :=
  let server : End := ⟨0,true⟩
  let client : End := ⟨0,false⟩
  let earmark e := List.replicate 10 (NetAct.event e .resume)
  [.event server (.makeThread 1 0),.event client (.makeThread 2 1),.deliver server [],.deliver server []] ++
    earmark server ++ [.deliver client [],.deliver client []] ++ earmark client ++ [.deliver server []]

theorem request_held_one : ∃ net hist pkt, Run (ExecStep (Network.exec hostOfTwo)) two hist net ∧
    net.chan ⟨0,false⟩ = [pkt] ∧ pkt.type = .Request ∧
    (net.nodes 0).ost.bfield.exists (toInt pkt.req.pcno.toNat) = .ok true ∧
    (net.nodes 0).ost.getPiece (toInt pkt.req.pcno.toNat) = (do
      let (buf,cache) ← (net.nodes 0).ost.cache.get (toInt pkt.req.pcno.toNat)
      return (1,buf,{ (net.nodes 0).ost with cache })) ∧
    (∀ r buf ost, (net.nodes 0).ost.getPiece (toInt pkt.req.pcno.toNat) = .ok (r,buf,ost) → r = 1) ∧
    ((net.nodes 0).ost.cache.CanGet ((net.nodes 0).ost.cache.getPos (toInt pkt.req.pcno.toNat)) →
      ∃ buf ost, (net.nodes 0).ost.getPiece (toInt pkt.req.pcno.toNat) = .ok (1,buf,ost)) ∧
    ∀ junk, ((net.nodes 0).session ⟨0,true⟩).sendPiece pkt.req.pcno junk ≠ .error .exit := by
  have hsent : ((execAll (Network.exec hostOfTwo) opening [] two).toOption.map fun r =>
      (r.2.chan ⟨0,false⟩).map fun pkt => pkt.type) = some [.Request] := by decide +kernel
  cases hx : execAll (Network.exec hostOfTwo) opening [] two with
  | error f =>
    rw [hx] at hsent
    cases hsent
  | ok r =>
    obtain ⟨hist,net⟩ := r
    rw [hx] at hsent
    obtain ⟨pkt,hchan,hr⟩ := List.map_eq_singleton_iff.mp (Option.some.inj hsent)
    have run := run_of_execAll Run.refl hx
    have hinit : two.Initial 1 1 :=
      ⟨by decide,by decide,fun _ => ⟨show 1 < 2 ^ 31 by decide,show 1 = (1 + 7) / 8 by decide,rfl,fun _ => rfl⟩,fun _ => rfl,fun _ => rfl⟩
    have hheld := request_held (e := ⟨0,true⟩) hinit run hchan hr
    exact ⟨net,hist,pkt,run,hchan,hr,hheld⟩

end Network

end BTRx
