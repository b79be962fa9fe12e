import BTRx.Node.Claims

/-! # No piece is requested twice

The invariant behind it: requests stay inside the claims of their connection, the claims
of two connections are apart, no claim is on a piece held from the beginning, and a piece
stored since then was requested on a connection that has erased it from its `reqs`.
-/
namespace BTRx
open ByteSet Memory LittleEndian Transition
open Session

def Phase.Busy : Phase → Prop
  | .diffing => True
  | .marking _ _ => True
  | _ => False

section
variable {ι : Type}

def RequestSent (hist : NodeHist ι) (c : ι) (q : UInt32) : Prop :=
  ∃ e ∈ hist, (∃ ev, e.2.1 = .thread c ev) ∧ ∃ m ∈ e.2.2, m.type = .Request ∧ m.req.pcno = q

def BitFieldSeen (hist : NodeHist ι) (c : ι) : Prop :=
  ∃ e ∈ hist, ∃ pkt junk, e.2.1 = .thread c (.packet pkt junk) ∧ pkt.type = .BitField

/-- A peer sends one BitField, and a Piece only when it was asked for. -/
def Provided (hist : NodeHist ι) (_ : Node ι) (l : Act ι × List PktMsg) : Prop :=
  ∀ c pkt junk, l.1 = .thread c (.packet pkt junk) →
    (pkt.type = .BitField → ¬ BitFieldSeen hist c) ∧
    (pkt.type = .Piece → RequestSent hist c pkt.piece.pcno)

/-- Every Request sent was for a piece not held in the state before the step. -/
def Unheld (hist : NodeHist ι) : Prop := ∀ e ∈ hist, ∀ m ∈ e.2.2, m.type = .Request →
  e.1.ost.bfield.exists (toInt m.req.pcno.toNat) = .ok false

/-- The packet that a step receives, with its connection. -/
def Act.packet : Act ι → Option (ι × PktMsg)
  | .thread c (.packet pkt _) => some (c,pkt)
  | _ => none

def Act.actor : Act ι → Option ι
  | .thread c _ => some c
  | .choke _ _ => none

theorem Act.packet_eq_some {a : Act ι} {c : ι} {pkt : PktMsg} :
    a.packet = some (c,pkt) ↔ ∃ junk, a = .thread c (.packet pkt junk) := by
  cases a with
  | choke => simp [packet]
  | thread d ev => cases ev <;> simp [packet]

theorem Act.actor_eq_some {a : Act ι} {c : ι} : a.actor = some c ↔ ∃ ev, a = .thread c ev := by
  cases a <;> simp [actor]

theorem bitFieldSeen_iff {hist : NodeHist ι} {c : ι} :
    (∃ e ∈ hist, ∃ x ∈ e.2.1.packet, x.1 = c ∧ x.2.type = .BitField) ↔ BitFieldSeen hist c := by
  refine exists_congr fun e => and_congr_right fun _ => ?_
  constructor
  · rintro ⟨⟨_,pkt⟩,hx,rfl,hb⟩
    obtain ⟨junk,h⟩ := Act.packet_eq_some.mp hx
    exact ⟨pkt,junk,h,hb⟩
  · rintro ⟨pkt,junk,h,hb⟩
    exact ⟨(c,pkt),Act.packet_eq_some.mpr ⟨junk,h⟩,rfl,hb⟩

theorem requestSent_iff {hist : NodeHist ι} {c : ι} {q : UInt32} :
    (∃ e ∈ hist, e.2.1.actor = some c ∧ ∃ m ∈ e.2.2, m.type = .Request ∧ m.req.pcno = q) ↔
      RequestSent hist c q :=
  exists_congr fun _ => and_congr_right fun _ => and_congr_left fun _ => Act.actor_eq_some

theorem provided_iff {hist : NodeHist ι} {n : Node ι} {l : Act ι × List PktMsg} :
    (∀ x ∈ l.1.packet, (x.2.type = .BitField → ¬ BitFieldSeen hist x.1) ∧
      (x.2.type = .Piece → RequestSent hist x.1 x.2.piece.pcno)) ↔ Provided hist n l := by
  constructor
  · intro h c pkt junk heq
    exact h (c,pkt) (Act.packet_eq_some.mpr ⟨junk,heq⟩)
  · rintro h ⟨c,pkt⟩ hx
    obtain ⟨junk,heq⟩ := Act.packet_eq_some.mp hx
    exact h c pkt junk heq

section
variable [DecidableEq ι]

instance (hist : NodeHist ι) (c : ι) : Decidable (BitFieldSeen hist c) := decidable_of_iff _ bitFieldSeen_iff

instance (hist : NodeHist ι) (c : ι) (q : UInt32) : Decidable (RequestSent hist c q) :=
  decidable_of_iff _ requestSent_iff

instance (hist : NodeHist ι) (n : Node ι) (l : Act ι × List PktMsg) : Decidable (Provided hist n l) :=
  decidable_of_iff _ provided_iff

end

/-- The state of one connection, against the bitfield `own` at the beginning. -/
structure ThreadOk (own : List UInt8) (hist : NodeHist ι) (c : ι) (t : Thread) : Prop where
  todo : t.TodoOk
  size : t.conn.diff.length ≤ own.length
  fresh : ¬ BitFieldSeen hist c ∨ t.phase = .diffing → t.conn.diff = []
  quiet : ¬ BitFieldSeen hist c ∨ t.phase.Busy → (∀ q, q ∉ t.conn.reqs) ∧ ∀ q, ¬ RequestSent hist c q
  start : t.phase = .start → ¬ BitFieldSeen hist c
  busy : t.phase.Busy → BitFieldSeen hist c
  new : ∀ p, bitAt t.conn.diff p = true → bitAt own p = false
  reqs : ∀ q ∈ t.conn.reqs, t.Claimed q.toNat
  sent : ∀ q, RequestSent hist c q → t.Claimed q.toNat

/-- The invariant of the node. -/
structure Exclusive (own : List UInt8) (hist : NodeHist ι) (n : Node ι) : Prop where
  length : n.ost.bfield.bfield.length = own.length
  grows : ∀ p, bitAt own p = true → bitAt n.ost.bfield.bfield p = true
  threads : ∀ c, ThreadOk own hist c (n.threads c)
  marks : ∀ c p, (n.threads c).Claimed p → bitAt n.nmap.bfield.bfield p = true
  apart : ∀ c d p, (n.threads c).Claimed p → (n.threads d).Claimed p → c = d
  held : ∀ p, bitAt n.ost.bfield.bfield p = true → bitAt own p = true ∨
    ∃ c q, q.toNat = p ∧ RequestSent hist c q ∧ q ∉ (n.threads c).conn.reqs

/-! ## What follows in one state -/

variable {own : List UInt8} {hist : NodeHist ι} {n : Node ι}

theorem Exclusive.reqs_disjoint (h : Exclusive own hist n) {c d : ι} (hne : c ≠ d) {q : UInt32}
    (hc : q ∈ (n.threads c).conn.reqs) : q ∉ (n.threads d).conn.reqs := by
  intro hd
  exact hne (h.apart c d _ ((h.threads c).reqs q hc) ((h.threads d).reqs q hd))

theorem Exclusive.not_held (h : Exclusive own hist n) {c : ι} {q : UInt32}
    (hq : q ∈ (n.threads c).conn.reqs) : bitAt n.ost.bfield.bfield q.toNat = false := by
  have hclaim := (h.threads c).reqs q hq
  by_contra hheld
  rw [Bool.not_eq_false] at hheld
  rcases h.held _ hheld with hown | ⟨d,q',heq,hsent,hnot⟩
  · rw [(h.threads c).new _ hclaim.1] at hown
    cases hown
  · rw [UInt32.toNat_inj] at heq
    subst heq
    have hcd := h.apart c d _ hclaim ((h.threads d).sent _ hsent)
    subst hcd
    exact hnot hq

theorem Exclusive.exists_false (h : Exclusive own hist n) (hown : 8 * own.length ≤ 2 ^ 31) {c : ι}
    {q : UInt32} (hq : q ∈ (n.threads c).conn.reqs) :
    n.ost.bfield.exists (toInt q.toNat) = .ok false := by
  have hlt := lt_of_bitAt ((h.threads c).reqs q hq).1
  have hsize := (h.threads c).size
  have hlen := h.length
  have hint : toInt q.toNat = q.toNat := toInt_of_lt (by omega) (by omega)
  rw [hint,Bfield.exists_of_lt (by omega),h.not_held hq]

/-! ## The history grows -/

theorem requestSent_cons {a : Act ι} {out : List PktMsg} {c : ι} {q : UInt32} :
    RequestSent ((n,a,out) :: hist) c q ↔
      (∃ ev, a = .thread c ev) ∧ (∃ m ∈ out, m.type = .Request ∧ m.req.pcno = q) ∨
        RequestSent hist c q := by
  simp [RequestSent]

theorem bitFieldSeen_cons {a : Act ι} {out : List PktMsg} {c : ι} :
    BitFieldSeen ((n,a,out) :: hist) c ↔
      (∃ pkt junk, a = .thread c (.packet pkt junk) ∧ pkt.type = .BitField) ∨ BitFieldSeen hist c := by
  simp [BitFieldSeen]

theorem requestSent_self {c : ι} {ev : Event} {out : List PktMsg} {q : UInt32} :
    RequestSent ((n,.thread c ev,out) :: hist) c q ↔
      (∃ m ∈ out, m.type = .Request ∧ m.req.pcno = q) ∨ RequestSent hist c q := by
  rw [requestSent_cons]
  exact or_congr_left (and_iff_right ⟨ev,rfl⟩)

theorem requestSent_other {c d : ι} (hd : d ≠ c) {ev : Event} {out : List PktMsg} {q : UInt32} :
    RequestSent ((n,.thread c ev,out) :: hist) d q ↔ RequestSent hist d q := by
  rw [requestSent_cons]
  refine or_iff_right ?_
  rintro ⟨⟨_,heq⟩,_⟩
  cases heq
  exact hd rfl

theorem bitFieldSeen_self {c : ι} {ev : Event} {out : List PktMsg} :
    BitFieldSeen ((n,.thread c ev,out) :: hist) c ↔
      (∃ pkt junk, ev = .packet pkt junk ∧ pkt.type = .BitField) ∨ BitFieldSeen hist c := by
  rw [bitFieldSeen_cons]
  simp

theorem bitFieldSeen_other {c d : ι} (hd : d ≠ c) {ev : Event} {out : List PktMsg} :
    BitFieldSeen ((n,.thread c ev,out) :: hist) d ↔ BitFieldSeen hist d := by
  rw [bitFieldSeen_cons]
  refine or_iff_right ?_
  rintro ⟨_,_,heq,_⟩
  cases heq
  exact hd rfl

/-- A connection only looks at its own entries of the history. -/
theorem ThreadOk.congr {hist' : NodeHist ι} {c : ι} {t : Thread} (h : ThreadOk own hist c t)
    (hseen : BitFieldSeen hist' c ↔ BitFieldSeen hist c)
    (hsent : ∀ q, RequestSent hist' c q ↔ RequestSent hist c q) : ThreadOk own hist' c t := by
  refine ⟨h.todo,h.size,?_,?_,?_,?_,h.new,h.reqs,?_⟩
  · rw [hseen]
    exact h.fresh
  · simp only [hseen,hsent]
    exact h.quiet
  · rw [hseen]
    exact h.start
  · rw [hseen]
    exact h.busy
  · simp only [hsent]
    exact h.sent

/-- What a step sends announces the node, or asks for pieces of `reqs`, as it was or as
the BitField case leaves it. -/
theorem Session.Moved.sent {s s' : Session} {ph ph' : Phase} {ev : Event}
    (hm : Moved s ph ev s' ph') (hout : s.out = []) : (∃ b, Announces s.ost.bfield.bfield b s'.out) ∨
      ph = .ready ∧ AsksOnly s.conn.reqs s'.out ∨
        ph.Busy ∧ s'.ost = s.ost ∧ AsksOnly s'.conn.reqs s'.out := by
  have hnone : AsksOnly s.conn.reqs s.out := hout ▸ asksOnly_nil _
  cases hm with
  | made hnew =>
    simp only [hout,List.nil_append]
    exact Or.inl ⟨_,hnew⟩
  | kept _ _ hk =>
    obtain ⟨new,heq,hasks⟩ := hk.sent
    rw [heq,hout,List.nil_append]
    exact Or.inr (Or.inl ⟨rfl,hasks⟩)
  | stored _ ht =>
    obtain ⟨new,heq,hasks⟩ := ht.sent
    rw [heq,hout,List.nil_append]
    exact Or.inr (Or.inl ⟨rfl,hasks⟩)
  | received _ hnew =>
    simp only [hout,List.nil_append]
    exact Or.inl ⟨_,hnew⟩
  | compared => exact Or.inr (Or.inr ⟨trivial,rfl,hnone⟩)
  | marked => exact Or.inr (Or.inr ⟨trivial,rfl,hnone⟩)
  | @answered ret =>
    obtain ⟨host,_,_,new,heq,hasks⟩ := answerBitField_spec ret s
    rw [heq,hout,List.nil_append]
    exact Or.inr (Or.inr ⟨trivial,host,hasks⟩)

theorem Session.Moved.asks {s s' : Session} {ph ph' : Phase} {ev : Event}
    (hm : Moved s ph ev s' ph') (hout : s.out = []) {m : PktMsg} (hmem : m ∈ s'.out)
    (hr : m.type = .Request) : ph = .ready ∧ m.req.pcno ∈ s.conn.reqs ∨
      ph.Busy ∧ s'.ost = s.ost ∧ m.req.pcno ∈ s'.conn.reqs := by
  rcases hm.sent hout with ⟨_,hnew⟩ | ⟨hph,hasks⟩ | ⟨hb,host,hasks⟩
  · exact absurd hr (hnew.1 m hmem).1
  · exact Or.inl ⟨hph,(hasks m hmem).2 hr⟩
  · exact Or.inr ⟨hb,host,(hasks m hmem).2 hr⟩

/-- Outside the BitField case a step may take requests away and send some of them. -/
theorem ThreadOk.of_ready {hist' : NodeHist ι} {c : ι} {conn conn' : Conn} {ph' : Phase}
    (h : ThreadOk own hist c ⟨conn,.ready⟩) (htodo : Thread.TodoOk ⟨conn',ph'⟩)
    (hph : ph' = .ready ∨ ph' = .closed) (hdiff : conn'.diff = conn.diff)
    (hsub : ∀ q ∈ conn'.reqs, q ∈ conn.reqs) (hseen : BitFieldSeen hist' c ↔ BitFieldSeen hist c)
    (hsent : ∀ q, RequestSent hist' c q → q ∈ conn.reqs ∨ RequestSent hist c q) :
    ThreadOk own hist' c ⟨conn',ph'⟩ := by
  have hidle : ¬ ph'.Busy := by rcases hph with rfl | rfl <;> exact id
  have htd : ph'.todo = [] := by rcases hph with rfl | rfl <;> rfl
  have hclaim : ∀ p, Thread.Claimed ⟨conn,.ready⟩ p → Thread.Claimed ⟨conn',ph'⟩ p :=
    fun p hp => ⟨hdiff ▸ hp.1,fun ij hij => absurd (htd ▸ hij) List.not_mem_nil⟩
  refine ⟨htodo,hdiff ▸ h.size,?_,?_,?_,fun hb => absurd hb hidle,hdiff ▸ h.new,
    fun q hq => hclaim _ (h.reqs q (hsub q hq)),?_⟩
  · rintro (hs | hd)
    · rw [hdiff]
      exact h.fresh (Or.inl (hseen.not.mp hs))
    · rcases hph with rfl | rfl <;> cases hd
  · rintro (hs | hb)
    · obtain ⟨hreqs,hno⟩ := h.quiet (Or.inl (hseen.not.mp hs))
      exact ⟨fun q hq => hreqs q (hsub q hq),fun q hq => (hsent q hq).elim (hreqs q) (hno q)⟩
    · exact absurd hb hidle
  · intro hst
    rcases hph with rfl | rfl <;> cases hst
  · intro q hq
    rcases hsent q hq with hin | hq
    · exact hclaim _ (h.reqs q hin)
    · exact hclaim _ (h.sent q hq)

/-- Inside the BitField case nothing has been requested yet, and `diff` is all that changes. -/
theorem ThreadOk.of_busy {hist' : NodeHist ι} {c : ι} {conn conn' : Conn} {ph ph' : Phase}
    (h : ThreadOk own hist c ⟨conn,ph⟩) (hb : ph.Busy) (htodo : Thread.TodoOk ⟨conn',ph'⟩)
    (hb' : ph'.Busy) (hph' : ph' ≠ .diffing) (hreqs : conn'.reqs = conn.reqs)
    (hsize : conn'.diff.length ≤ own.length) (hnew : ∀ p, bitAt conn'.diff p = true → bitAt own p = false)
    (hseen : BitFieldSeen hist c → BitFieldSeen hist' c)
    (hsent : ∀ q, RequestSent hist' c q → RequestSent hist c q) : ThreadOk own hist' c ⟨conn',ph'⟩ := by
  obtain ⟨hempty,hno⟩ := h.quiet (Or.inr hb)
  have hs : BitFieldSeen hist' c := hseen (h.busy hb)
  have hempty' : ∀ q, q ∉ conn'.reqs := fun q hq => hempty q (hreqs ▸ hq)
  have hno' : ∀ q, ¬ RequestSent hist' c q := fun q hq => hno q (hsent q hq)
  refine ⟨htodo,hsize,?_,fun _ => ⟨hempty',hno'⟩,?_,fun _ => hs,hnew,
    fun q hq => absurd hq (hempty' q),fun q hq => absurd hq (hno' q)⟩
  · rintro (hns | hd)
    · exact absurd hs hns
    · exact absurd hd hph'
  · intro hst
    replace hst : ph' = .start := hst
    subst hst
    exact hb'.elim

/-- The end of the BitField case makes requests of what is claimed. -/
theorem ThreadOk.answered {hist' : NodeHist ι} {c : ι} {s : Session} {ret : Bool}
    (h : ThreadOk own hist c ⟨s.conn,.marking [] ret⟩) (hsize : 8 * own.length ≤ 2 ^ 31)
    (htodo : Thread.TodoOk ⟨(s.answerBitField ret).conn,.ready⟩)
    (hseen : BitFieldSeen hist c → BitFieldSeen hist' c)
    (hsent : ∀ q, RequestSent hist' c q →
      q ∈ (s.answerBitField ret).conn.reqs ∨ RequestSent hist c q) :
    ThreadOk own hist' c ⟨(s.answerBitField ret).conn,.ready⟩ := by
  obtain ⟨hreqs,hno⟩ := h.quiet (Or.inr trivial)
  have hs : BitFieldSeen hist' c := hseen (h.busy trivial)
  have hdiff : (s.answerBitField ret).conn.diff = s.conn.diff := by
    rw [(answerBitField_spec ret s).2.2.1]
  have hclaim : ∀ q ∈ (s.answerBitField ret).conn.reqs,
      Thread.Claimed ⟨(s.answerBitField ret).conn,.ready⟩ q.toNat := by
    intro q hq
    rcases mem_answerBitField_reqs hq with hq | ⟨p,hp,rfl⟩
    · exact absurd hq (hreqs q)
    · have hlt := lt_of_bitAt hp
      have hsz : s.conn.diff.length ≤ own.length := h.size
      have hnat : (UInt32.ofNat p).toNat = p := UInt32.toNat_ofNat_of_lt' (by
        simp only [UInt32.size]
        omega)
      rw [hnat]
      exact ⟨by rw [hdiff]; exact hp,fun ij hij => absurd hij List.not_mem_nil⟩
  refine ⟨htodo,hdiff ▸ h.size,?_,?_,by simp,fun hb => hb.elim,hdiff ▸ h.new,hclaim,?_⟩
  · rintro (hns | hd)
    · exact absurd hs hns
    · cases hd
  · rintro (hns | hb)
    · exact absurd hs hns
    · exact hb.elim
  · intro q hq
    rcases hsent q hq with hin | hq
    · exact hclaim q hin
    · exact absurd hq (hno q)

/-- The step lemma for the connection that moves. -/
theorem Session.Moved.threadOk {s s' : Session} {ph ph' : Phase} {ev : Event} {c : ι}
    {hist' : NodeHist ι} (hm : Moved s ph ev s' ph') (h : ThreadOk own hist c ⟨s.conn,ph⟩)
    (hlen : s.ost.bfield.bfield.length = own.length) (hsize : 8 * own.length ≤ 2 ^ 31)
    (hgrow : ∀ p, bitAt own p = true → bitAt s.ost.bfield.bfield p = true) (hout : s.out = [])
    (hok : ∀ pkt junk, ev = .packet pkt junk → pkt.type = .BitField → ¬ BitFieldSeen hist c)
    (hseen : BitFieldSeen hist' c ↔
      (∃ pkt junk, ev = .packet pkt junk ∧ pkt.type = .BitField) ∨ BitFieldSeen hist c)
    (hsent : ∀ q, RequestSent hist' c q ↔
      (∃ m ∈ s'.out, m.type = .Request ∧ m.req.pcno = q) ∨ RequestSent hist c q) :
    ThreadOk own hist' c ⟨s'.conn,ph'⟩ := by
  have htodo := hm.todoOk h.todo
  have hasks := fun {m : PktMsg} => hm.asks (m := m) hout
  -- what has been asked for after the step, outside the BitField case and where nothing is sent
  have hready : ¬ ph.Busy → ∀ q, RequestSent hist' c q → q ∈ s.conn.reqs ∨ RequestSent hist c q := by
    intro hb q hq
    rcases (hsent q).mp hq with ⟨m,hmem,hr,rfl⟩ | hq
    · rcases hasks hmem hr with ⟨_,hin⟩ | ⟨hbusy,_⟩
      · exact Or.inl hin
      · exact absurd hbusy hb
    · exact Or.inr hq
  have hsilent : s'.out = [] → ∀ q, RequestSent hist' c q → RequestSent hist c q := by
    intro hnil q hq
    rcases (hsent q).mp hq with ⟨m,hmem,_⟩ | hq
    · rw [hnil] at hmem
      cases hmem
    · exact hq
  have hkeep : BitFieldSeen hist c → BitFieldSeen hist' c := fun hs => hseen.mpr (Or.inr hs)
  cases hm with
  | made hnew =>
    obtain ⟨hreqs,hno⟩ := h.quiet (Or.inl (h.start rfl))
    have hno' : ∀ q, ¬ RequestSent hist' c q := fun q hq => (hready id q hq).elim (hreqs q) (hno q)
    refine ⟨htodo,by simp [Conn.new],fun _ => rfl,fun _ => ⟨by simp [Conn.new],hno'⟩,by simp,
      fun hb => hb.elim,by simp [Conn.new],by simp [Conn.new],fun q hq => absurd hq (hno' q)⟩
  | kept hev hph hk =>
    refine h.of_ready htodo hph hk.diff (fun q hq => hk.reqs ▸ hq) ?_ (hready id)
    rw [hseen]
    refine or_iff_right ?_
    rintro ⟨pkt,junk,rfl,hb⟩
    exact (hev pkt junk rfl).1 hb
  | @stored pkt junk s' hp ht =>
    have hsub : ∀ q ∈ s'.conn.reqs, q ∈ s.conn.reqs := by
      intro q hq
      rw [ht.reqs,if_pos hp,AList.mem_erase] at hq
      exact hq.2
    refine h.of_ready htodo (Or.inl rfl) ht.diff hsub ?_ (hready id)
    rw [hseen]
    refine or_iff_right ?_
    rintro ⟨pkt',junk',heq,hb⟩
    cases heq
    rw [hp] at hb
    cases hb
  | @received pkt junk new hb hnew =>
    have hs := hok pkt junk rfl hb
    obtain ⟨hreqs,hno⟩ := h.quiet (Or.inl hs)
    have hdiff := h.fresh (Or.inl hs)
    have hno' : ∀ q, ¬ RequestSent hist' c q := fun q hq => (hready id q hq).elim (hreqs q) (hno q)
    exact ⟨htodo,h.size,fun _ => hdiff,fun _ => ⟨hreqs,hno'⟩,by simp,
      fun _ => hseen.mpr (Or.inl ⟨pkt,junk,rfl,hb⟩),h.new,fun q hq => absurd hq (hreqs q),
      fun q hq => absurd hq (hno' q)⟩
  | @compared hle diff hdiff =>
    have hempty : s.conn.diff = [] := h.fresh (Or.inr rfl)
    rw [hempty] at hdiff
    refine h.of_busy trivial htodo trivial (by simp) rfl ?_ ?_ hkeep (hsilent hout)
    · simp only [hdiff,newBits,List.nil_append,List.length_zipWith]
      omega
    · intro p hp
      simp only [hdiff,bitAt_newBits hle,Bool.and_eq_true,Bool.not_eq_true'] at hp
      by_contra hown
      rw [Bool.not_eq_false] at hown
      rw [hgrow p hown] at hp
      cases hp.2
  | @marked ij todo ret e he =>
    obtain ⟨hi,hj⟩ := h.todo.2 _ List.mem_cons_self
    have hlen' := (Earmarking.turn_length hi hj he).1
    exact h.of_busy trivial htodo trivial (by simp) rfl (hlen'.trans_le h.size)
      (fun p hp => h.new p ((Earmarking.turn_diff hi hj he p).2 hp)) hkeep (hsilent hout)
  | answered =>
    refine h.answered hsize htodo hkeep fun q hq => ?_
    rcases (hsent q).mp hq with ⟨m,hmem,hr,rfl⟩ | hq
    · rcases hasks hmem hr with ⟨hph,_⟩ | ⟨_,_,hin⟩
      · cases hph
      · exact Or.inl hin
    · exact Or.inr hq

/-- A `reqs` set from which something was requested only shrinks. -/
theorem Session.Moved.reqs_shrink {s s' : Session} {ph ph' : Phase} {ev : Event} {c : ι}
    (hm : Moved s ph ev s' ph') (h : ThreadOk own hist c ⟨s.conn,ph⟩) {q₀ : UInt32}
    (hsent : RequestSent hist c q₀) : ∀ q ∈ s'.conn.reqs, q ∈ s.conn.reqs := by
  intro q hq
  cases hm with
  | made => exact absurd hsent ((h.quiet (Or.inl (h.start rfl))).2 q₀)
  | kept _ _ hk => exact hk.reqs ▸ hq
  | stored hp ht =>
    rw [ht.reqs,if_pos hp,AList.mem_erase] at hq
    exact hq.2
  | received => exact hq
  | compared => exact hq
  | marked => exact hq
  | answered => exact absurd hsent ((h.quiet (Or.inr trivial)).2 q₀)

end

section
variable {ι : Type} [DecidableEq ι] {own : List UInt8} {hist : NodeHist ι} {n n' : Node ι}

omit [DecidableEq ι] in
theorem exclusive_init {n₀ : Node ι} (h₀ : n₀.Fresh) : Exclusive n₀.ost.bfield.bfield [] n₀ := by
  have hthread : ∀ c, ThreadOk n₀.ost.bfield.bfield [] c (n₀.threads c) := by
    intro c
    have hno : ∀ q, ¬ RequestSent [] c q := fun q hq => by
      obtain ⟨e,he,_⟩ := hq
      cases he
    rw [h₀.threads c]
    refine ⟨⟨List.nodup_nil,fun ij hij => absurd hij List.not_mem_nil⟩,by simp [Thread.new,Conn.new],
      fun _ => rfl,fun _ => ⟨by simp [Thread.new,Conn.new],hno⟩,?_,fun hb => hb.elim,
      by simp [Thread.new,Conn.new],by simp [Thread.new,Conn.new],fun q hq => absurd hq (hno q)⟩
    rintro _ ⟨e,he,_⟩
    cases he
  have hclaim : ∀ c p, ¬ (n₀.threads c).Claimed p := by
    intro c p hp
    rw [h₀.threads c] at hp
    simpa [Thread.new,Conn.new] using hp.1
  exact ⟨rfl,fun _ => id,hthread,fun c p hp => absurd hp (hclaim c p),
    fun c d p hp => absurd hp (hclaim c p),fun p hp => Or.inl hp⟩

omit [DecidableEq ι] in
/-- A write to `nbr->choked` touches nothing the invariant speaks of. -/
theorem exclusive_choke (h : Exclusive own hist n) (k : ℕ) (choked : Bool) :
    Exclusive own ((n,.choke k choked,[]) :: hist) (n.leaveChoked k choked) := by
  have hsent : ∀ c q, RequestSent ((n,.choke k choked,[]) :: hist) c q ↔ RequestSent hist c q := by
    intro c q
    rw [requestSent_cons]
    exact or_iff_right fun ⟨⟨_,heq⟩,_⟩ => nomatch heq
  have hseen : ∀ c, BitFieldSeen ((n,.choke k choked,[]) :: hist) c ↔ BitFieldSeen hist c := by
    intro c
    rw [bitFieldSeen_cons]
    exact or_iff_right fun ⟨_,_,heq,_⟩ => nomatch heq
  refine ⟨h.length,h.grows,fun c => (h.threads c).congr (hseen c) (hsent c),h.marks,h.apart,?_⟩
  intro p hp
  rcases h.held p hp with hown | ⟨c,q,heq,hq,hnot⟩
  · exact Or.inl hown
  · exact Or.inr ⟨c,q,heq,(hsent c q).mpr hq,hnot⟩

/-- Claims stay apart: a new claim sets an earmark that another claim would have set. -/
theorem Exclusive.apart_thread (h : Exclusive own hist n) {c : ι} {r : Session × Phase}
    {ev : Event} (hm : Moved (n.session c) (n.threads c).phase ev r.1 r.2) {d e : ι} {p : ℕ}
    (hdp : ((n.put c r).threads d).Claimed p) (hep : ((n.put c r).threads e).Claimed p) : d = e := by
  have hcross : ∀ d, d ≠ c → ((n.put c r).threads c).Claimed p → ¬ (n.threads d).Claimed p := by
    intro d hd hp hp'
    rw [Node.put_self] at hp
    rcases hm.claimed (h.threads c).todo hp with hp | ⟨hclear,_⟩
    · exact hd (h.apart d c p hp' hp)
    · have hmark := h.marks d p hp'
      replace hclear : bitAt n.nmap.bfield.bfield p = false := hclear
      rw [hclear] at hmark
      cases hmark
  by_cases hd : d = c
  · by_cases he : e = c
    · rw [hd,he]
    · subst hd
      rw [Node.put_other n he] at hep
      exact absurd hep (hcross e he hdp)
  · rw [Node.put_other n hd] at hdp
    by_cases he : e = c
    · subst he
      exact absurd hdp (hcross d hd hep)
    · rw [Node.put_other n he] at hep
      exact h.apart d e p hdp hep

/-- A piece held before keeps its reason, and one stored by this step was requested here
and has just been erased. -/
theorem Exclusive.held_thread (h : Exclusive own hist n) {c : ι} {ev : Event} {out : List PktMsg}
    (hok : Provided hist n (.thread c ev,out)) {r : Session × Phase}
    (hm : Moved (n.session c) (n.threads c).phase ev r.1 r.2) {p : ℕ}
    (hp : bitAt r.1.ost.bfield.bfield p = true) : bitAt own p = true ∨ ∃ d q, q.toNat = p ∧
      RequestSent ((n,.thread c ev,out) :: hist) d q ∧ q ∉ ((n.put c r).threads d).conn.reqs := by
  by_cases hp' : bitAt n.ost.bfield.bfield p = true
  · rcases h.held p hp' with hown | ⟨d,q,heq,hq,hnot⟩
    · exact Or.inl hown
    · refine Or.inr ⟨d,q,heq,requestSent_cons.mpr (Or.inr hq),?_⟩
      by_cases hd : d = c
      · subst hd
        rw [Node.put_self]
        exact fun hin => hnot (hm.reqs_shrink (h.threads d) hq q hin)
      · rw [Node.put_other n hd]
        exact hnot
  · obtain ⟨pkt,junk,rfl,ht,heq,hreqs⟩ := hm.held_new hp hp'
    refine Or.inr ⟨c,_,heq.symm,requestSent_cons.mpr (Or.inr ((hok c pkt junk rfl).2 ht)),?_⟩
    rw [Node.put_self,hreqs]
    simp

/-- The step lemma of the node. -/
theorem exclusive_thread (h : Exclusive own hist n) (hsize : 8 * own.length ≤ 2 ^ 31) {c : ι} {ev : Event}
    {out : List PktMsg} (hok : Provided hist n (.thread c ev,out))
    (hx : n.exec (.thread c ev) = .ok (out,n')) :
    Exclusive own ((n,.thread c ev,out) :: hist) n' := by
  obtain ⟨s',ph',hm,rfl,rfl⟩ := Node.exec_thread hx
  have hc := h.threads c
  obtain ⟨hlen,hheld⟩ := hm.held
  have hok' : ThreadOk own ((n,.thread c ev,s'.out) :: hist) c ⟨s'.conn,ph'⟩ :=
    hm.threadOk hc h.length hsize h.grows rfl
      (fun pkt junk heq hb => (hok c pkt junk (by rw [heq])).1 hb) bitFieldSeen_self
      (fun _ => requestSent_self)
  refine ⟨hlen.trans h.length,fun p hp => hheld p (h.grows p hp),?_,?_,
    fun d e p hd he => h.apart_thread hm hd he,fun p hp => h.held_thread hok hm hp⟩
  · intro d
    by_cases hd : d = c
    · subst hd
      rw [Node.put_self]
      exact hok'
    · rw [Node.put_other n hd]
      exact (h.threads d).congr (bitFieldSeen_other hd) fun _ => requestSent_other hd
  · intro d p hp
    by_cases hd : d = c
    · subst hd
      rw [Node.put_self] at hp
      rcases hm.claimed hc.todo hp with hp | ⟨_,hp⟩
      · exact hm.marks hc.todo (h.marks d p hp)
      · exact hp
    · rw [Node.put_other n hd] at hp
      exact hm.marks hc.todo (h.marks d p hp)

theorem unheld_thread (h : Exclusive own hist n) (hsize : 8 * own.length ≤ 2 ^ 31) {c : ι} {ev : Event}
    {out : List PktMsg} (hx : n.exec (.thread c ev) = .ok (out,n'))
    (h' : Exclusive own ((n,.thread c ev,out) :: hist) n') : ∀ m ∈ out, m.type = .Request →
      n.ost.bfield.exists (toInt m.req.pcno.toNat) = .ok false := by
  intro m hmem hr
  obtain ⟨s',ph',hm,rfl,rfl⟩ := Node.exec_thread hx
  rcases hm.asks rfl hmem hr with ⟨_,hin⟩ | ⟨_,host,hin⟩
  · exact h.exists_false hsize hin
  · have hq : m.req.pcno ∈ ((n.put c (s',ph')).threads c).conn.reqs := by
      rw [Node.put_self]
      exact hin
    have hex := h'.exists_false hsize hq
    have hsame : (n.put c (s',ph')).ost = n.ost := host
    rw [hsame] at hex
    exact hex

/-- In every run, the requests of two connections are disjoint, and what is requested is
not held. -/
theorem requests_exclusive {n₀ : Node ι} (h₀ : n₀.Fresh) (run : Run (ExecStep Node.exec) n₀ hist n)
    (hok : Admissible Provided hist) :
    (∀ c d, c ≠ d → ∀ q ∈ (n.threads c).conn.reqs, q ∉ (n.threads d).conn.reqs) ∧ Unheld hist := by
  have hsize : 8 * n₀.ost.bfield.bfield.length ≤ 2 ^ 31 := by
    have h1 := h₀.npcs
    have h2 := h₀.own
    omega
  have hinv : Exclusive n₀.ost.bfield.bfield hist n ∧ Unheld hist := by
    refine run.invariant (P := fun hist n => Exclusive n₀.ost.bfield.bfield hist n ∧ Unheld hist) hok
      ⟨exclusive_init h₀,fun e he => absurd he List.not_mem_nil⟩ ?_
    rintro hist n ⟨a,out⟩ n' ⟨hex,hun⟩ hprov hx
    replace hx : n.exec a = .ok (out,n') := hx
    cases a with
    | choke k choked =>
      cases hx
      refine ⟨exclusive_choke hex k choked,?_⟩
      intro e he
      rcases List.mem_cons.mp he with rfl | he
      · exact fun m hm => absurd hm List.not_mem_nil
      · exact hun e he
    | thread c ev =>
      have hex' := exclusive_thread hex hsize hprov hx
      refine ⟨hex',?_⟩
      intro e he
      rcases List.mem_cons.mp he with rfl | he
      · exact unheld_thread hex hsize hx hex'
      · exact hun e he
  exact ⟨fun c d hne q hq => hinv.1.reqs_disjoint hne hq,hinv.2⟩

end

/-- A node of one piece that holds nothing. -/
def emptyNode : Node ℕ where
  ost :=
    { fsz := 1
      pcsz := 1
      npcs := 1
      cache := ⟨∅,[],[],⟨[some 0],0⟩,1,1,1⟩
      bfield := ⟨[0]⟩ }
  nmap := NbrMap.new 1 1
  threads _ := Thread.new

/-- Two connections, both to a peer with the piece, whose BitFields are handled side by side. -/
def askTwice : List (Act ℕ) :=
  .thread 0 (.makeThread 1 2) :: .thread 1 (.makeThread 1 3) ::
    .thread 0 (.packet { type := .BitField, bfield := ⟨[1]⟩ } []) ::
    .thread 1 (.packet { type := .BitField, bfield := ⟨[1]⟩ } []) ::
    (List.replicate 10 [Act.thread 0 .resume,Act.thread 1 .resume]).flatten

theorem requests_exclusive_one : ∃ hist n, Run (ExecStep Node.exec) emptyNode hist n ∧
    (BitFieldSeen hist 0 ∧ BitFieldSeen hist 1 ∧ RequestSent hist 0 0 ∧ 0 ∈ (n.threads 0).conn.reqs) ∧
    (∀ c d, c ≠ d → ∀ q ∈ (n.threads c).conn.reqs, q ∉ (n.threads d).conn.reqs) ∧ Unheld hist := by
  obtain ⟨hist,n,run,h⟩ := @exists_run _ _ _ _ Node.exec emptyNode askTwice
    (fun hist n => decide (Admissible Provided hist ∧ BitFieldSeen hist 0 ∧ BitFieldSeen hist 1 ∧
      RequestSent hist 0 0 ∧ 0 ∈ (n.threads 0).conn.reqs)) (by decide +kernel)
  obtain ⟨hok,hsent⟩ := of_decide_eq_true h
  have hfresh : emptyNode.Fresh := ⟨by decide,by decide,by decide,fun _ => rfl⟩
  exact ⟨hist,n,run,hsent,requests_exclusive hfresh run hok⟩

end BTRx
