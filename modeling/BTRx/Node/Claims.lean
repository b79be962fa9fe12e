import BTRx.Node.Step

/-! # The pieces a connection has claimed

A thread has claimed the bits of its `diff` that the loop of `earmark` has gone past.
Claims are made by setting an earmark that was clear, one at a time, so no other thread
can come between the test and the claim.
-/
namespace BTRx
open ByteSet Memory LittleEndian Transition
open Session

/-- In `diff`, and no longer in front of the loop. -/
def Thread.Claimed (t : Thread) (p : ℕ) : Prop :=
  bitAt t.conn.diff p = true ∧ ∀ ij ∈ t.phase.todo, pieceAt ij ≠ p

/-- The loop visits positions of `diff`, each of them once. -/
def Thread.TodoOk (t : Thread) : Prop :=
  t.phase.todo.Nodup ∧ ∀ ij ∈ t.phase.todo, ij.1 < t.conn.diff.length ∧ ij.2 < 8

namespace Session
variable {s s' : Session} {ph ph' : Phase} {ev : Event}

theorem Moved.todoOk (hm : Moved s ph ev s' ph') (h : Thread.TodoOk ⟨s.conn,ph⟩) :
    Thread.TodoOk ⟨s'.conn,ph'⟩ := by
  cases hm with
  | made => exact ⟨List.nodup_nil,fun ij hij => absurd hij List.not_mem_nil⟩
  | kept _ hph _ =>
    have htodo : ph'.todo = [] := by rcases hph with rfl | rfl <;> rfl
    exact ⟨htodo ▸ List.nodup_nil,fun ij hij => absurd (htodo ▸ hij) List.not_mem_nil⟩
  | stored => exact ⟨List.nodup_nil,fun ij hij => absurd hij List.not_mem_nil⟩
  | received => exact ⟨List.nodup_nil,fun ij hij => absurd hij List.not_mem_nil⟩
  | compared => exact ⟨positions_nodup _,fun ij hij => mem_positions.mp hij⟩
  | marked he =>
    obtain ⟨hnd,hin⟩ := h
    obtain ⟨hi,hj⟩ := hin _ List.mem_cons_self
    have hlen := (Earmarking.turn_length hi hj he).1
    refine ⟨(List.nodup_cons.mp hnd).2,fun kl hkl => ?_⟩
    have hkl' := hin kl (List.mem_cons_of_mem _ hkl)
    exact ⟨by rw [hlen]; exact hkl'.1,hkl'.2⟩
  | answered => exact ⟨List.nodup_nil,fun ij hij => absurd hij List.not_mem_nil⟩

/-- Earmarks stay set. -/
theorem Moved.marks (hm : Moved s ph ev s' ph') (h : Thread.TodoOk ⟨s.conn,ph⟩) {p : ℕ}
    (hp : bitAt s.nmap.bfield.bfield p = true) : bitAt s'.nmap.bfield.bfield p = true := by
  cases hm with
  | made => exact hp
  | kept _ _ hk => rw [hk.marks]; exact hp
  | stored _ ht => rw [ht.marks]; exact hp
  | received => exact hp
  | compared => exact hp
  | marked he =>
    obtain ⟨hi,hj⟩ := h.2 _ List.mem_cons_self
    exact Earmarking.turn_marks hi hj he hp
  | answered => rw [(answerBitField_spec _ s).2.1]; exact hp

/-- A new claim sets an earmark that was clear. -/
theorem Moved.claimed (hm : Moved s ph ev s' ph') (h : Thread.TodoOk ⟨s.conn,ph⟩) {p : ℕ}
    (hp : Thread.Claimed ⟨s'.conn,ph'⟩ p) : Thread.Claimed ⟨s.conn,ph⟩ p ∨
      bitAt s.nmap.bfield.bfield p = false ∧ bitAt s'.nmap.bfield.bfield p = true := by
  cases hm with
  | made => exact absurd hp.1 (by simp [Conn.new])
  | kept _ _ hk => exact Or.inl ⟨hk.diff ▸ hp.1,fun ij hij => absurd hij List.not_mem_nil⟩
  | stored _ ht => exact Or.inl ⟨ht.diff ▸ hp.1,fun ij hij => absurd hij List.not_mem_nil⟩
  | received => exact Or.inl hp
  | compared _ hdiff =>
    obtain ⟨hbit,hnot⟩ := hp
    obtain ⟨ij,hij,heq⟩ := exists_position hbit
    exact absurd heq (hnot ij hij)
  | @marked ij todo ret e he =>
    obtain ⟨hi,hj⟩ := h.2 _ List.mem_cons_self
    have hcons : pieceAt ij ≠ p → bitAt s.conn.diff p = true →
        Thread.Claimed ⟨s.conn,.marking (ij :: todo) ret⟩ p := by
      intro hne hbit
      refine ⟨hbit,fun kl hkl => ?_⟩
      rcases List.mem_cons.mp hkl with rfl | hkl
      · exact hne
      · exact hp.2 kl hkl
    rcases Earmarking.turn_cases hi hj he with ⟨hclear,rfl⟩ | ⟨_,_,_,_,_,hbits⟩ | ⟨_,hclear,hlt,rfl⟩
    · refine Or.inl (hcons ?_ hp.1)
      rintro rfl
      rw [hp.1] at hclear
      cases hclear
    · have hbit := hp.1
      rw [hbits,Bool.and_eq_true,decide_eq_true_eq] at hbit
      exact Or.inl (hcons (fun he => hbit.2 he.symm) hbit.1)
    · by_cases heq : pieceAt ij = p
      · subst heq
        exact Or.inr ⟨hclear,by rw [bitAt_setAt hlt]; simp⟩
      · exact Or.inl (hcons heq hp.1)
  | answered =>
    rw [(answerBitField_spec _ s).2.2.1] at hp
    exact Or.inl hp

/-- The own bitfield keeps its length and its bits. -/
theorem Moved.held (hm : Moved s ph ev s' ph') :
    s'.ost.bfield.bfield.length = s.ost.bfield.bfield.length ∧
      ∀ p, bitAt s.ost.bfield.bfield p = true → bitAt s'.ost.bfield.bfield p = true := by
  cases hm with
  | made => exact ⟨rfl,fun _ => id⟩
  | kept _ _ hk => rw [hk.held]; exact ⟨rfl,fun _ => id⟩
  | stored hp ht =>
    obtain ⟨q,_,hlt,hset⟩ := ht.stored hp
    rw [hset]
    exact ⟨setAt_length _ _,fun p => bitAt_setAt_of_bitAt hlt⟩
  | received => exact ⟨rfl,fun _ => id⟩
  | compared => exact ⟨rfl,fun _ => id⟩
  | marked => exact ⟨rfl,fun _ => id⟩
  | answered => rw [(answerBitField_spec _ s).1]; exact ⟨rfl,fun _ => id⟩

/-- A new bit of the own bitfield is the piece of a Piece, which leaves `reqs`. -/
theorem Moved.held_new (hm : Moved s ph ev s' ph') {p : ℕ} (hp : bitAt s'.ost.bfield.bfield p = true)
    (hnot : ¬ bitAt s.ost.bfield.bfield p = true) : ∃ pkt junk, ev = .packet pkt junk ∧
      pkt.type = .Piece ∧ p = pkt.piece.pcno.toNat ∧ s'.conn.reqs = s.conn.reqs.erase pkt.piece.pcno := by
  cases hm with
  | made => exact absurd hp hnot
  | kept _ _ hk =>
    rw [hk.held] at hp
    exact absurd hp hnot
  | @stored pkt junk _ ht h =>
    refine ⟨pkt,junk,rfl,ht,((h.bitAt_held ht p).mp hp).resolve_left hnot,?_⟩
    rw [h.reqs,if_pos ht]
  | received => exact absurd hp hnot
  | compared => exact absurd hp hnot
  | marked => exact absurd hp hnot
  | answered =>
    rw [(answerBitField_spec _ s).1] at hp
    exact absurd hp hnot

end Session

namespace Node
variable {ι : Type} [DecidableEq ι]

/-- A step of a thread of the node. -/
theorem exec_thread {n n' : Node ι} {c : ι} {ev : Event} {out : List PktMsg}
    (h : n.exec (.thread c ev) = .ok (out,n')) : ∃ s' ph',
      Moved (n.session c) (n.threads c).phase ev s' ph' ∧ out = s'.out ∧ n' = n.put c (s',ph') := by
  obtain ⟨⟨s',ph'⟩,he,h⟩ := Outcome.bind_eq_ok.mp h
  cases h
  exact ⟨s',ph',event_moved he,rfl,rfl⟩

theorem put_self (n : Node ι) (c : ι) (r : Session × Phase) : (n.put c r).threads c = ⟨r.1.conn,r.2⟩ := by
  simp [put]

theorem put_other (n : Node ι) {c d : ι} (hd : d ≠ c) (r : Session × Phase) :
    (n.put c r).threads d = n.threads d := by
  simp [put,hd]

end Node

end BTRx
