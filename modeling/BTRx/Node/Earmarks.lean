import BTRx.Node.Requests

/-! # Where the earmarks go

Nothing ever clears an earmark. A marked piece is held, asked for on some connection or on
its way into a `reqs` set; but a connection takes its `reqs` with it when it ends, and a
call of `earmark` whose last turn fails returns `false`, so that the claims of its other
turns never become requests.
-/
namespace BTRx
open ByteSet Memory LittleEndian Transition
open Session

/-- The loop of the handler has begun and not ended. -/
def Phase.Running (ph : Phase) : Prop := ph ≠ .start ∧ ph ≠ .closed

instance (ph : Phase) : Decidable ph.Running := inferInstanceAs (Decidable (_ ∧ _))

/-- In the `reqs` of a thread that was started. -/
def Thread.Asks (t : Thread) (p : ℕ) : Prop := t.phase ≠ .start ∧ UInt32.ofNat p ∈ t.conn.reqs

/-- Claimed by a BitField that is still being handled. -/
def Thread.Marking (t : Thread) (p : ℕ) : Prop :=
  (∃ todo ret, t.phase = .marking todo ret) ∧ t.Claimed p

/-- In the `reqs` of a connection, or on its way there. -/
def Thread.Tied (t : Thread) (p : ℕ) : Prop := UInt32.ofNat p ∈ t.conn.reqs ∨ t.Marking p

section
variable {ι : Type}

/-- Claimed in a call of `earmark` that returned `false`. -/
def Dropped (hist : NodeHist ι) (p : ℕ) : Prop := ∃ e ∈ hist, ∃ c, e.2.1 = .thread c .resume ∧
  (e.1.threads c).phase = .marking [] false ∧ bitAt (e.1.threads c).conn.diff p = true

/-- What is claimed is marked, and the earmarks keep their length. -/
structure MarksOk (len : ℕ) (n : Node ι) : Prop where
  todo : ∀ c, (n.threads c).TodoOk
  claimed : ∀ c p, (n.threads c).Claimed p → bitAt n.nmap.bfield.bfield p = true
  length : n.nmap.bfield.bfield.length = len

def Accounted (hist : NodeHist ι) (n : Node ι) (p : ℕ) : Prop :=
  bitAt n.ost.bfield.bfield p = true ∨ (∃ c, (n.threads c).Asks p) ∨
    (∃ c, (n.threads c).Marking p) ∨ Dropped hist p

end

namespace Session
variable {s s' : Session} {ph ph' : Phase} {ev : Event}

/-- A new earmark is a claim of the thread that sets it. -/
theorem Moved.marks_new (hm : Moved s ph ev s' ph') (h : Thread.TodoOk ⟨s.conn,ph⟩) {p : ℕ}
    (hclear : bitAt s.nmap.bfield.bfield p = false) (hset : bitAt s'.nmap.bfield.bfield p = true) :
    Thread.Marking ⟨s'.conn,ph'⟩ p := by
  have hsame : s'.nmap.bfield ≠ s.nmap.bfield := by
    intro heq
    rw [heq,hclear] at hset
    cases hset
  cases hm with
  | made => exact absurd rfl hsame
  | kept _ _ hk => exact absurd hk.marks hsame
  | stored _ ht => exact absurd ht.marks hsame
  | received => exact absurd rfl hsame
  | compared => exact absurd rfl hsame
  | @marked ij todo ret e he =>
    obtain ⟨hnd,hin⟩ := h
    obtain ⟨hi,hj⟩ := hin _ List.mem_cons_self
    rcases Earmarking.turn_cases hi hj he with ⟨_,rfl⟩ | ⟨_,_,hb,_⟩ | ⟨hbit,_,hlt,rfl⟩
    · exact absurd rfl hsame
    · exact absurd hb hsame
    · have hp : pieceAt ij = p := by
        simpa [bitAt_setAt hlt,hclear] using hset
      subst hp
      refine ⟨⟨todo,true,rfl⟩,hbit,fun kl hkl heq => ?_⟩
      have hkl' := hin kl (List.mem_cons_of_mem _ hkl)
      have := pieceAt_inj hkl'.2 hj heq
      exact (List.nodup_cons.mp hnd).1 (this ▸ hkl)
  | answered => exact absurd (congrArg NbrMap.bfield (answerBitField_spec _ s).2.1) hsame

/-- A piece that is asked for stays so until it is held. -/
theorem Moved.asks_kept (hm : Moved s ph ev s' ph') {p : ℕ} (hp : p < 2 ^ 32)
    (h : Thread.Asks ⟨s.conn,ph⟩ p) :
    bitAt s'.ost.bfield.bfield p = true ∨ Thread.Asks ⟨s'.conn,ph'⟩ p := by
  obtain ⟨hph,hin⟩ := h
  cases hm with
  | made => exact absurd rfl hph
  | kept _ hph' hk =>
    refine Or.inr ⟨?_,by rw [hk.reqs]; exact hin⟩
    rcases hph' with rfl | rfl
    · exact nofun
    · exact nofun
  | @stored pkt _ _ hty ht =>
    by_cases heq : UInt32.ofNat p = pkt.piece.pcno
    · left
      rw [ht.bitAt_held hty,← heq,UInt32.toNat_ofNat_of_lt' hp]
      exact Or.inr rfl
    · refine Or.inr ⟨nofun,?_⟩
      rw [ht.reqs,if_pos hty,AList.mem_erase]
      exact ⟨heq,hin⟩
  | received => exact Or.inr ⟨nofun,hin⟩
  | compared => exact Or.inr ⟨nofun,hin⟩
  | marked => exact Or.inr ⟨nofun,hin⟩
  | @answered ret =>
    refine Or.inr ⟨nofun,?_⟩
    rw [(answerBitField_spec ret s).2.2.1]
    simp only
    split
    · exact mem_diffToReqs.mpr (Or.inl hin)
    · exact hin

/-- A claim survives the loop, and becomes a request unless `earmark` returns `false`. -/
theorem Moved.marking_kept (hm : Moved s ph ev s' ph') (h : Thread.TodoOk ⟨s.conn,ph⟩) {p : ℕ}
    (hp : Thread.Marking ⟨s.conn,ph⟩ p) : Thread.Marking ⟨s'.conn,ph'⟩ p ∨ Thread.Asks ⟨s'.conn,ph'⟩ p ∨
      ev = .resume ∧ ph = .marking [] false ∧ bitAt s.conn.diff p = true := by
  obtain ⟨⟨todo,ret,hph⟩,hbit,hnot⟩ := hp
  simp only at hph
  subst hph
  cases hm with
  | @marked ij todo _ e he =>
    obtain ⟨hi,hj⟩ := h.2 _ List.mem_cons_self
    have hne : p ≠ pieceAt ij := fun heq => hnot _ List.mem_cons_self heq.symm
    have hkeep : bitAt e.diff p = true := ((Earmarking.turn_diff hi hj he p).1 hne).trans hbit
    exact Or.inl ⟨⟨todo,e.ret,rfl⟩,hkeep,fun kl hkl => hnot kl (List.mem_cons_of_mem _ hkl)⟩
  | answered =>
    right
    cases ret with
    | false => exact Or.inr ⟨rfl,rfl,hbit⟩
    | true =>
      left
      refine ⟨nofun,?_⟩
      rw [answerBitField_true]
      exact mem_diffToReqs.mpr (Or.inr ⟨p,hbit,rfl⟩)

theorem Moved.marks_length (hm : Moved s ph ev s' ph') (h : Thread.TodoOk ⟨s.conn,ph⟩) :
    s'.nmap.bfield.bfield.length = s.nmap.bfield.bfield.length := by
  cases hm with
  | made => rfl
  | kept _ _ hk => rw [hk.marks]
  | stored _ ht => rw [ht.marks]
  | received => rfl
  | compared => rfl
  | marked he =>
    obtain ⟨hi,hj⟩ := h.2 _ List.mem_cons_self
    exact (Earmarking.turn_length hi hj he).2
  | answered => rw [(answerBitField_spec _ s).2.1]

/-- No thread claims a marked piece. -/
theorem Moved.claimed_marked (hm : Moved s ph ev s' ph') (h : Thread.TodoOk ⟨s.conn,ph⟩) {p : ℕ}
    (hmark : bitAt s.nmap.bfield.bfield p = true) (hp : Thread.Claimed ⟨s'.conn,ph'⟩ p) :
    Thread.Claimed ⟨s.conn,ph⟩ p := by
  rcases hm.claimed h hp with hp | ⟨hclear,_⟩
  · exact hp
  · rw [hmark] at hclear
    cases hclear

/-- A marked piece comes into no `reqs`, unless a claim on it is on the way there. -/
theorem Moved.tied (hm : Moved s ph ev s' ph') (h : Thread.TodoOk ⟨s.conn,ph⟩)
    (hlt : ∀ q, Thread.Claimed ⟨s.conn,ph⟩ q → q < 2 ^ 32) {p : ℕ} (hp : p < 2 ^ 32)
    (hmark : bitAt s.nmap.bfield.bfield p = true) (hafter : Thread.Tied ⟨s'.conn,ph'⟩ p) :
    Thread.Tied ⟨s.conn,ph⟩ p := by
  rcases hafter with hin | ⟨⟨todo',ret',hph⟩,hc⟩
  · simp only at hin
    cases hm with
    | made => exact absurd hin (by simp [Conn.new])
    | kept _ _ hk => exact Or.inl (hk.reqs ▸ hin)
    | stored hty ht =>
      rw [ht.reqs,if_pos hty,AList.mem_erase] at hin
      exact Or.inl hin.2
    | received => exact Or.inl hin
    | compared => exact Or.inl hin
    | marked => exact Or.inl hin
    | @answered ret =>
      rcases mem_answerBitField_reqs hin with hin | ⟨q,hq,heq⟩
      · exact Or.inl hin
      · have hcq : Thread.Claimed ⟨s.conn,.marking [] ret⟩ q := ⟨hq,fun ij hij => absurd hij List.not_mem_nil⟩
        have hnat := congrArg UInt32.toNat heq
        rw [UInt32.toNat_ofNat_of_lt' hp,UInt32.toNat_ofNat_of_lt' (hlt q hcq)] at hnat
        exact Or.inr ⟨⟨[],ret,rfl⟩,hnat ▸ hcq⟩
  · simp only at hph
    subst hph
    cases hm with
    | kept _ hph' _ => rcases hph' with hph' | hph' <;> cases hph'
    | compared =>
      obtain ⟨ij,hij,heq⟩ := exists_position hc.1
      exact absurd heq (hc.2 ij hij)
    | marked he => exact Or.inr ⟨⟨_,_,rfl⟩,(Moved.marked he).claimed_marked h hmark hc⟩

end Session

section
variable {ι : Type} [DecidableEq ι] {len : ℕ} {hist : NodeHist ι} {n n' : Node ι}

omit [DecidableEq ι] in
theorem Dropped.cons {p : ℕ} (h : Dropped hist p) (e : Node ι × Act ι × List PktMsg) :
    Dropped (e :: hist) p := by
  obtain ⟨e',he',h⟩ := h
  exact ⟨e',List.mem_cons_of_mem _ he',h⟩

/-- The step lemma: every marked piece stays accounted for. -/
theorem accounted_thread {c : ι} {ev : Event} {out : List PktMsg} {p : ℕ} (hp : p < 2 ^ 32)
    (htodo : ∀ c, (n.threads c).TodoOk)
    (h : bitAt n.nmap.bfield.bfield p = true → Accounted hist n p)
    (hx : n.exec (.thread c ev) = .ok (out,n')) (hmark : bitAt n'.nmap.bfield.bfield p = true) :
    Accounted ((n,.thread c ev,out) :: hist) n' p := by
  obtain ⟨s',ph',hm,rfl,rfl⟩ := Node.exec_thread hx
  have hself := n.put_self c (s',ph')
  have hother := fun {d : ι} (hd : d ≠ c) => n.put_other hd (s',ph')
  by_cases hold : bitAt n.nmap.bfield.bfield p = true
  · rcases h hold with hheld | ⟨d,hd⟩ | ⟨d,hd⟩ | hdrop
    · exact Or.inl (hm.held.2 p hheld)
    · by_cases hdc : d = c
      · subst hdc
        rcases hm.asks_kept hp hd with hheld | hasks
        · exact Or.inl hheld
        · exact Or.inr (Or.inl ⟨d,hself ▸ hasks⟩)
      · exact Or.inr (Or.inl ⟨d,(hother hdc).symm ▸ hd⟩)
    · by_cases hdc : d = c
      · subst hdc
        rcases hm.marking_kept (htodo d) hd with hmk | hasks | ⟨rfl,hph,hbit⟩
        · exact Or.inr (Or.inr (Or.inl ⟨d,hself ▸ hmk⟩))
        · exact Or.inr (Or.inl ⟨d,hself ▸ hasks⟩)
        · exact Or.inr (Or.inr (Or.inr ⟨_,List.mem_cons_self,d,rfl,hph,hbit⟩))
      · exact Or.inr (Or.inr (Or.inl ⟨d,(hother hdc).symm ▸ hd⟩))
    · exact Or.inr (Or.inr (Or.inr (hdrop.cons _)))
  · have hnew := hm.marks_new (htodo c) (Bool.not_eq_true _ ▸ hold) hmark
    exact Or.inr (Or.inr (Or.inl ⟨c,hself ▸ hnew⟩))

omit [DecidableEq ι] in
theorem marksOk_init {n₀ : Node ι} (h₀ : n₀.Fresh) : MarksOk n₀.ost.npcs n₀ := by
  refine ⟨fun c => ?_,fun c p hc => ?_,?_⟩
  · rw [h₀.threads c]
    exact ⟨List.nodup_nil,fun ij hij => absurd hij List.not_mem_nil⟩
  · rw [h₀.threads c] at hc
    exact absurd hc.1 (by simp [Thread.new,Conn.new])
  · simp [h₀.marks,Bfield.ofCount]

theorem MarksOk.exec (h : MarksOk len n) {a : Act ι} {out : List PktMsg} (hx : n.exec a = .ok (out,n')) :
    MarksOk len n' := by
  cases a with
  | choke k choked =>
    cases hx
    exact ⟨h.todo,h.claimed,h.length⟩
  | thread c ev =>
    obtain ⟨s',ph',hm,rfl,rfl⟩ := Node.exec_thread hx
    have hc := h.todo c
    refine ⟨fun d => ?_,fun d p hd => ?_,(hm.marks_length hc).trans h.length⟩
    · by_cases hdc : d = c
      · subst hdc
        rw [Node.put_self]
        exact hm.todoOk hc
      · rw [Node.put_other _ hdc]
        exact h.todo d
    · by_cases hdc : d = c
      · subst hdc
        rw [Node.put_self] at hd
        rcases hm.claimed hc hd with hd | ⟨_,hset⟩
        · exact hm.marks hc (h.claimed d p hd)
        · exact hset
      · rw [Node.put_other _ hdc] at hd
        exact hm.marks hc (h.claimed d p hd)

/-- One step keeps an earmark and brings no claim of its piece. Piece numbers of 32 bits
only tell the positions of a `diff` apart while there are no more than `2 ^ 32` of them. -/
theorem MarksOk.blocked (h : MarksOk len n) {p : ℕ} {a : Act ι} {out : List PktMsg}
    (hx : n.exec a = .ok (out,n')) (hmark : bitAt n.nmap.bfield.bfield p = true) :
    bitAt n'.nmap.bfield.bfield p = true ∧ (∀ d, (n'.threads d).Claimed p → (n.threads d).Claimed p) ∧
      (8 * len ≤ 2 ^ 32 → ∀ d, (n'.threads d).Tied p → (n.threads d).Tied p) := by
  cases a with
  | choke k choked =>
    cases hx
    exact ⟨hmark,fun d => id,fun _ d => id⟩
  | thread c ev =>
    obtain ⟨s',ph',hm,rfl,rfl⟩ := Node.exec_thread hx
    refine ⟨hm.marks (h.todo c) hmark,fun d hd => ?_,fun hlen d hd => ?_⟩
    · by_cases hdc : d = c
      · subst hdc
        rw [Node.put_self] at hd
        exact hm.claimed_marked (h.todo d) hmark hd
      · rwa [Node.put_other _ hdc] at hd
    · have hlt : ∀ {q : ℕ}, bitAt n.nmap.bfield.bfield q = true → q < 2 ^ 32 := by
        intro q hq
        have hbit := lt_of_bitAt hq
        have hlength := h.length
        omega
      by_cases hdc : d = c
      · subst hdc
        rw [Node.put_self] at hd
        exact hm.tied (h.todo d) (fun q hq => hlt (h.claimed d q hq)) (hlt hmark) hmark hd
      · rwa [Node.put_other _ hdc] at hd

theorem MarksOk.run (h : MarksOk len n) {p : ℕ} (hmark : bitAt n.nmap.bfield.bfield p = true)
    {later : NodeHist ι} {m : Node ι} (run : Run (ExecStep Node.exec) n later m) : MarksOk len m ∧
      bitAt m.nmap.bfield.bfield p = true ∧ (∀ c, (m.threads c).Claimed p → (n.threads c).Claimed p) ∧
      (8 * len ≤ 2 ^ 32 → ∀ c, (m.threads c).Tied p → (n.threads c).Tied p) := by
  refine run.preserves (P := fun m => MarksOk len m ∧ bitAt m.nmap.bfield.bfield p = true ∧
    (∀ c, (m.threads c).Claimed p → (n.threads c).Claimed p) ∧
    (8 * len ≤ 2 ^ 32 → ∀ c, (m.threads c).Tied p → (n.threads c).Tied p))
    ⟨h,hmark,fun c => id,fun _ c => id⟩ ?_
  rintro m ⟨a,out⟩ m' ⟨hok,hbit,hclaim,htied⟩ hx
  obtain ⟨hbit',hclaim',htied'⟩ := hok.blocked hx hbit
  exact ⟨hok.exec hx,hbit',fun c hc => hclaim c (hclaim' c hc),
    fun hlen c hc => htied hlen c (htied' hlen c hc)⟩

/-- In every run, a marked piece whose call of `earmark` succeeded is held, or asked for on
a running connection, or claimed by a BitField that is being handled, or it was in the
`reqs` of a connection when that ended. Whatever happens later, it stays marked, and no
further connection claims it or comes to ask for it. -/
theorem earmarks_accounted {n₀ : Node ι} (h₀ : n₀.Fresh) (run : Run (ExecStep Node.exec) n₀ hist n)
    {p : ℕ} (hp : p < n₀.ost.npcs) (hmark : bitAt n.nmap.bfield.bfield p = true)
    (hdrop : ¬ Dropped hist p) : (bitAt n.ost.bfield.bfield p = true ∨
      (∃ c, (n.threads c).phase.Running ∧ UInt32.ofNat p ∈ (n.threads c).conn.reqs) ∨
      (∃ c, (n.threads c).Marking p) ∨
      ∃ c, (n.threads c).phase = .closed ∧ UInt32.ofNat p ∈ (n.threads c).conn.reqs) ∧
    ∀ later m, Run (ExecStep Node.exec) n later m → bitAt m.nmap.bfield.bfield p = true ∧
      (∀ c, (m.threads c).Claimed p → (n.threads c).Claimed p) ∧
      (n₀.ost.npcs ≤ 2 ^ 29 → ∀ c, UInt32.ofNat p ∈ (m.threads c).conn.reqs →
        UInt32.ofNat p ∈ (n.threads c).conn.reqs ∨ (n.threads c).Marking p) := by
  have hnpcs := h₀.npcs
  have hinv : MarksOk n₀.ost.npcs n ∧
      (bitAt n.nmap.bfield.bfield p = true → Accounted hist n p) := by
    refine run.always (P := fun hist n => MarksOk n₀.ost.npcs n ∧
      (bitAt n.nmap.bfield.bfield p = true → Accounted hist n p)) ⟨marksOk_init h₀,?_⟩ ?_
    · intro h
      rw [h₀.marks,Bfield.ofCount] at h
      simp at h
    · rintro hist n ⟨a,out⟩ n' ⟨hok,hacc⟩ hx
      replace hx : n.exec a = .ok (out,n') := hx
      refine ⟨hok.exec hx,?_⟩
      cases a with
      | choke k choked =>
        cases hx
        intro h
        rcases hacc h with hheld | hasks | hmk | hdrop
        · exact Or.inl hheld
        · exact Or.inr (Or.inl hasks)
        · exact Or.inr (Or.inr (Or.inl hmk))
        · exact Or.inr (Or.inr (Or.inr (hdrop.cons _)))
      | thread c ev => exact fun h => accounted_thread (by omega) hok.todo hacc hx h
  refine ⟨?_,fun later m hlater => ?_⟩
  · rcases hinv.2 hmark with hheld | ⟨c,hph,hin⟩ | hmk | hdrop'
    · exact Or.inl hheld
    · by_cases hcl : (n.threads c).phase = .closed
      · exact Or.inr (Or.inr (Or.inr ⟨c,hcl,hin⟩))
      · exact Or.inr (Or.inl ⟨c,⟨hph,hcl⟩,hin⟩)
    · exact Or.inr (Or.inr (Or.inl hmk))
    · exact absurd hdrop' hdrop
  · obtain ⟨_,hbit,hclaim,htied⟩ := hinv.1.run hmark hlater
    exact ⟨hbit,hclaim,fun hle c hc => htied (by omega) c (Or.inl hc)⟩

end

/-- A connection asks for the piece and ends before it has come. -/
def hangUpAsking : List (Act ℕ) :=
  .thread 0 (.makeThread 1 2) :: .thread 0 (.packet { type := .Handshake } []) ::
    .thread 0 (.packet { type := .BitField, bfield := ⟨[1]⟩ } []) ::
    (List.replicate 10 (.thread 0 .resume) ++ [.thread 0 .eof])

theorem hangUpAsking_run : ∃ hist n, Run (ExecStep Node.exec) emptyNode hist n ∧
    bitAt n.nmap.bfield.bfield 0 = true ∧ ¬ Dropped hist 0 := by
  have run := run_of_execAll .refl (show execAll Node.exec hangUpAsking [] emptyNode = .ok _ from rfl)
  refine ⟨_,_,run,by decide,?_⟩
  rintro ⟨e,he,c,heq,hph,_⟩
  simp only [List.mem_cons,List.not_mem_nil,or_false] at he
  rcases he with rfl | rfl | rfl | rfl | rfl | rfl | rfl | rfl | rfl | rfl | rfl | rfl | rfl | rfl
  all_goals cases heq
  all_goals exact absurd hph (by decide)

theorem earmarks_accounted_one : ∃ hist n, Run (ExecStep Node.exec) emptyNode hist n ∧
    (bitAt n.ost.bfield.bfield 0 = true ∨
      (∃ c, (n.threads c).phase.Running ∧ 0 ∈ (n.threads c).conn.reqs) ∨
      (∃ c, (n.threads c).Marking 0) ∨
      ∃ c, (n.threads c).phase = .closed ∧ 0 ∈ (n.threads c).conn.reqs) ∧
    ∀ later m, Run (ExecStep Node.exec) n later m → bitAt m.nmap.bfield.bfield 0 = true ∧
      (∀ c, (m.threads c).Claimed 0 → (n.threads c).Claimed 0) ∧
      ∀ c, 0 ∈ (m.threads c).conn.reqs → 0 ∈ (n.threads c).conn.reqs ∨ (n.threads c).Marking 0 := by
  have hfresh : emptyNode.Fresh := ⟨by decide,by decide,by decide,fun _ => rfl⟩
  obtain ⟨hist,n,run,hmark,hdrop⟩ := hangUpAsking_run
  obtain ⟨hacc,hlater⟩ := earmarks_accounted hfresh run (by decide) hmark hdrop
  refine ⟨hist,n,run,hacc,fun later m hm => ?_⟩
  obtain ⟨hbit,hclaim,hreqs⟩ := hlater later m hm
  exact ⟨hbit,hclaim,hreqs (by decide)⟩

/-- Afterwards the piece is marked, not held, and in no `reqs` set of a running handler. -/
theorem earmark_leaked : ∃ hist n, Run (ExecStep Node.exec) emptyNode hist n ∧
    bitAt n.nmap.bfield.bfield 0 = true ∧ bitAt n.ost.bfield.bfield 0 = false ∧
    ∀ c, (n.threads c).phase.Running → 0 ∉ (n.threads c).conn.reqs := by
  have run := run_of_execAll .refl (show execAll Node.exec hangUpAsking [] emptyNode = .ok _ from rfl)
  refine ⟨_,_,run,by decide,by decide,?_⟩
  intro c hc
  by_cases h0 : c = 0
  · subst h0
    exact absurd hc (by decide)
  · simp only [Node.put_other _ h0] at hc
    exact absurd rfl hc.1

end BTRx
