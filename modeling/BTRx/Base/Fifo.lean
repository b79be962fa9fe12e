import Mathlib

/-! # Links with a queue at each end

A step of an end takes packets from the queue of its peer and appends packets to its own.
The log of a run keeps what each step took and appended, newest first. What an end has
appended is what its peer has taken followed by what still waits, and where every call an
end takes is answered in the same step, its calls are the answers that came back, the
answers on their way and the calls on their way, in this order.
-/
namespace BTRx.Fifo
universe u v w
variable {ε : Type u} {μ : Type v} {ν : Type w}

/-- What a step of one end took and what it appended. -/
structure Turn (ε : Type u) (μ : Type v) where
  actor : ε
  taken : List μ
  out : List μ

/-- The queues before and after a step. -/
structure Moves (peer : ε → ε) (chan : ε → List μ) (t : Turn ε μ) (chan' : ε → List μ) : Prop where
  received : chan (peer t.actor) = t.taken ++ chan' (peer t.actor)
  appended : chan' t.actor = chan t.actor ++ t.out
  frame : ∀ d, d ≠ t.actor → d ≠ peer t.actor → chan' d = chan d

variable [DecidableEq ε]

/-- All that an end has appended, oldest first. -/
def sent (e : ε) : List (Turn ε μ) → List μ
  | [] => []
  | t :: log => sent e log ++ if t.actor = e then t.out else []

/-- All that an end has taken, oldest first. -/
def taken (e : ε) : List (Turn ε μ) → List μ
  | [] => []
  | t :: log => taken e log ++ if t.actor = e then t.taken else []

variable {peer : ε → ε} {chan chan' : ε → List μ} {log : List (Turn ε μ)} {t : Turn ε μ} {e : ε}

theorem sent_self (h : t.actor = e) : sent e (t :: log) = sent e log ++ t.out := by
  rw [sent,if_pos h]

theorem sent_other (h : t.actor ≠ e) : sent e (t :: log) = sent e log := by
  rw [sent,if_neg h,List.append_nil]

theorem taken_self (h : t.actor = e) : taken e (t :: log) = taken e log ++ t.taken := by
  rw [taken,if_pos h]

theorem taken_other (h : t.actor ≠ e) : taken e (t :: log) = taken e log := by
  rw [taken,if_neg h,List.append_nil]

/-- Nothing is lost, doubled or overtaken. -/
def Conserved (peer : ε → ε) (log : List (Turn ε μ)) (chan : ε → List μ) : Prop :=
  ∀ e, sent e log = taken (peer e) log ++ chan e

theorem conserved_nil (h : ∀ e, chan e = []) : Conserved peer [] chan := fun e => (h e).symm

theorem Conserved.step (h : Conserved peer log chan) (hpeer : ∀ e, peer (peer e) = e)
    (hne : ∀ e, peer e ≠ e) (hm : Moves peer chan t chan') : Conserved peer (t :: log) chan' := by
  intro e
  by_cases hself : t.actor = e
  · subst hself
    rw [sent_self rfl,taken_other (hne _).symm,hm.appended,h,List.append_assoc]
  · rw [sent_other hself,h]
    by_cases hback : t.actor = peer e
    · have hrec := hm.received
      rw [hback,hpeer] at hrec
      rw [taken_self hback,List.append_assoc,hrec]
    · have hframe : e ≠ peer t.actor := by
        rintro rfl
        exact hback (hpeer _).symm
      rw [taken_other hback,hm.frame e (Ne.symm hself) hframe]

/-- Each step of the end answers what it takes, in the order in which it takes it. -/
def Responds (call answer : μ → Option ν) (e : ε) (log : List (Turn ε μ)) : Prop :=
  ∀ t ∈ log, t.actor = e → t.out.filterMap answer = t.taken.filterMap call

variable {call answer : μ → Option ν}

theorem Responds.answers (h : Responds call answer e log) :
    (sent e log).filterMap answer = (taken e log).filterMap call := by
  induction log with
  | nil => rfl
  | cons t log ih =>
    obtain ⟨ht,hlog⟩ := List.forall_mem_cons.mp h
    by_cases hself : t.actor = e
    · rw [sent_self hself,taken_self hself,List.filterMap_append,List.filterMap_append,ih hlog,ht hself]
    · rw [sent_other hself,taken_other hself,ih hlog]

/-- The calls of an end whose peer answers. -/
theorem Conserved.calls (h : Conserved peer log chan) (hpeer : ∀ e, peer (peer e) = e)
    (hr : Responds call answer (peer e) log) : (sent e log).filterMap call =
      (taken e log).filterMap answer ++ (chan (peer e)).filterMap answer ++ (chan e).filterMap call := by
  have hback : (taken (peer e) log).filterMap call = (taken e log ++ chan (peer e)).filterMap answer := by
    rw [← hr.answers,h (peer e),hpeer]
  rw [h e,List.filterMap_append,hback,List.filterMap_append]

end BTRx.Fifo
