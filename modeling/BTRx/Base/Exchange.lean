import BTRx.Base.Transition

/-! # Two sides that ask each other

Each side wants a set of keys. It answers an ask and then asks again for everything it
still wants; an answer takes its key out of the set. Answers arrive before the asks that
were sent behind them, so an ask can be given a weight that pays for all that follows
from it.
-/
namespace BTRx.Exchange
open Transition
variable {κ : Type*} [DecidableEq κ]

inductive Msg (κ : Type*)
  | ask (k : κ)
  | answer (k : κ)

/-- A side with the messages it has sent that have not been received, oldest first. -/
structure Side (κ : Type*) where
  wants : Finset κ
  sent : List (Msg κ)

abbrev State (κ : Type*) := Bool → Side κ

/-- Side `b` receives the first message of the other side. -/
inductive Step (s : State κ) (b : Bool) (s' : State κ) : Prop
  | answer (k : κ) (rest : List (Msg κ)) (head : (s !b).sent = .answer k :: rest)
    (other : s' (!b) = ⟨(s !b).wants,rest⟩) (self : s' b = ⟨(s b).wants.erase k,(s b).sent⟩)
  | ask (k : κ) (rest : List (Msg κ)) (order : List κ) (head : (s !b).sent = .ask k :: rest)
    (other : s' (!b) = ⟨(s !b).wants,rest⟩) (nodup : order.Nodup)
    (all : order.toFinset = (s b).wants)
    (self : s' b = ⟨(s b).wants,(s b).sent ++ .answer k :: order.map .ask⟩)

/-! ## The weight of an ask -/

/-- What follows from an ask when its receiver wants `a` keys, and its sender wants `b` once
the answer has arrived. -/
def weight : ℕ → ℕ → ℕ
  | 0,_ => 2
  | a + 1,b => 2 + (a + 1) * weight b a
termination_by a b => a + b

theorem weight_eq (a b : ℕ) : weight a b = 2 + a * weight b (a - 1) := by
  cases a with
  | zero => simp [weight]
  | succ a => rw [weight,Nat.add_sub_cancel]

theorem weight_mono {a a' b b' : ℕ} (ha : a ≤ a') (hb : b ≤ b') : weight a b ≤ weight a' b' := by
  induction a, b using weight.induct generalizing a' b' with
  | case1 b =>
    rw [weight_eq 0,weight_eq a']
    omega
  | case2 a b ih =>
    rw [weight_eq (a + 1),weight_eq a']
    have hrec : weight b (a + 1 - 1) ≤ weight b' (a' - 1) := ih hb (by omega)
    exact Nat.add_le_add_left (Nat.mul_le_mul ha hrec) 2

/-- The weight of messages for a receiver that wants `R`, from a sender that wants `D` and
does not yet have the answers to these messages. -/
def load : List (Msg κ) → Finset κ → Finset κ → ℕ
  | [],_,_ => 0
  | .answer k :: msgs,R,D => 1 + load msgs (R.erase k) D
  | .ask k :: msgs,R,D => weight R.card (D.erase k).card + load msgs R (D.erase k)

theorem load_eq_zero {msgs : List (Msg κ)} {R D : Finset κ} (h : load msgs R D = 0) : msgs = [] := by
  cases msgs with
  | nil => rfl
  | cons m msgs =>
    cases m with
    | answer k =>
      rw [load] at h
      omega
    | ask k =>
      rw [load,weight_eq] at h
      omega

def answers : List (Msg κ) → Finset κ
  | [] => ∅
  | .answer k :: msgs => insert k (answers msgs)
  | .ask _ :: msgs => answers msgs

def asks : List (Msg κ) → Finset κ
  | [] => ∅
  | .answer _ :: msgs => asks msgs
  | .ask k :: msgs => insert k (asks msgs)

theorem erase_sdiff (D X : Finset κ) (k : κ) : D.erase k \ X = D \ insert k X := by
  rw [Finset.erase_sdiff_comm,Finset.sdiff_insert]

theorem load_append (msgs msgs' : List (Msg κ)) (R D : Finset κ) :
    load (msgs ++ msgs') R D = load msgs R D + load msgs' (R \ answers msgs) (D \ asks msgs) := by
  induction msgs generalizing R D with
  | nil => simp [load,answers,asks]
  | cons m msgs ih =>
    cases m with
    | ask k => simp only [List.cons_append,load,ih,answers,asks,erase_sdiff,Nat.add_assoc]
    | answer k => simp only [List.cons_append,load,ih,answers,asks,erase_sdiff,Nat.add_assoc]

theorem answers_append (msgs msgs' : List (Msg κ)) :
    answers (msgs ++ msgs') = answers msgs ∪ answers msgs' := by
  induction msgs with
  | nil => simp [answers]
  | cons m msgs ih =>
    cases m with
    | ask k => simpa only [List.cons_append,answers] using ih
    | answer k => simp only [List.cons_append,answers,ih,Finset.insert_union]

theorem answers_map_ask (order : List κ) : answers (order.map Msg.ask) = ∅ := by
  induction order with
  | nil => rfl
  | cons k order ih => exact ih

/-- Asking for everything again costs no more than the answer to one ask has saved. -/
theorem load_asks_le {order : List κ} {W R D : Finset κ} (hD : D ⊆ W) (hmem : ∀ k ∈ order, k ∈ W) :
    load (order.map Msg.ask) R D ≤ order.length * weight R.card (W.card - 1) := by
  induction order generalizing D with
  | nil => simp [load]
  | cons k order ih =>
    rw [List.forall_mem_cons] at hmem
    have hcard : (D.erase k).card ≤ W.card - 1 := by
      rw [← Finset.card_erase_of_mem hmem.1]
      exact Finset.card_le_card (Finset.erase_subset_erase k hD)
    have hfirst := weight_mono (le_refl R.card) hcard
    have hrest := ih ((Finset.erase_subset k D).trans hD) hmem.2
    rw [List.map_cons,load,List.length_cons,Nat.succ_mul]
    omega

/-! ## The exchange ends -/

/-- What side `b` wants less the answers that are on their way to it. -/
def pending (s : State κ) (b : Bool) : Finset κ := (s b).wants \ answers (s !b).sent

def loadOf (s : State κ) (b : Bool) : ℕ := load (s b).sent (s !b).wants (pending s b)

def total (s : State κ) : ℕ := loadOf s true + loadOf s false

theorem total_eq (s : State κ) (b : Bool) : total s = loadOf s b + loadOf s !b := by
  cases b with
  | true => rfl
  | false => exact Nat.add_comm _ _

theorem Step.total_lt {s s' : State κ} {b : Bool} (h : Step s b s') : total s' < total s := by
  rw [total_eq s b,total_eq s' b]
  cases h with
  | answer k rest head other self =>
    simp only [loadOf,pending,Bool.not_not,other,self,head,load,answers,erase_sdiff]
    omega
  | ask k rest order head other nodup all self =>
    have hafter : (s !b).wants \ answers ((s b).sent ++ .answer k :: order.map .ask) =
        ((s !b).wants \ answers (s b).sent).erase k := by
      rw [answers_append,answers,answers_map_ask,Finset.union_insert,Finset.union_empty,Finset.sdiff_insert]
    have hlen : order.length = (s b).wants.card := by
      rw [← all,List.toFinset_card_of_nodup nodup]
    have hasks := load_asks_le (R := ((s !b).wants \ answers (s b).sent).erase k)
      (D := ((s b).wants \ answers rest) \ asks (s b).sent) (W := (s b).wants)
      (Finset.sdiff_subset.trans Finset.sdiff_subset)
      fun q (hq : q ∈ order) => all ▸ List.mem_toFinset.mpr hq
    simp only [loadOf,pending,Bool.not_not,other,self,head,answers,load,load_append,hafter]
    rw [weight_eq (s b).wants.card,← hlen] at *
    omega

theorem sent_eq_nil {s : State κ} (h : total s = 0) (b : Bool) : (s b).sent = [] := by
  rw [total_eq s b] at h
  exact load_eq_zero (Nat.eq_zero_of_add_eq_zero h).1

/-- What is on its way at the start pays for all steps of a run. -/
theorem length_add_total_le {s t : State κ} {hist : List (State κ × Bool)} (run : Run Step s hist t) :
    hist.length + total t ≤ total s :=
  run.length_add_le (P := fun _ => True) trivial (fun _ _ _ _ _ => trivial)
    fun _ _ _ _ last => last.total_lt

/-! ## Nothing is forgotten -/

/-- What side `b` wants is asked for or on its way. -/
def Covered (s : State κ) (b : Bool) : Prop :=
  ∀ k ∈ (s b).wants, .ask k ∈ (s b).sent ∨ .answer k ∈ (s !b).sent

theorem Step.covered_self {s s' : State κ} {b : Bool} (h : Step s b s') (hc : Covered s b) :
    Covered s' b := by
  intro k hk
  cases h with
  | answer k₀ rest head other self =>
    rw [self] at hk ⊢
    obtain ⟨hne,hk⟩ := Finset.mem_erase.mp hk
    rw [other]
    refine (hc k hk).imp_right fun hans => ?_
    rw [head] at hans
    rcases List.mem_cons.mp hans with heq | hans
    · exact absurd (Msg.answer.inj heq) hne
    · exact hans
  | ask k₀ rest order head other nodup all self =>
    rw [self] at hk ⊢
    rw [← all,List.mem_toFinset] at hk
    exact Or.inl (List.mem_append_right _ (List.mem_cons_of_mem _ (List.mem_map_of_mem hk)))

theorem Step.covered_other {s s' : State κ} {b : Bool} (h : Step s b s') (hc : Covered s (!b)) :
    Covered s' (!b) := by
  intro k hk
  rw [Bool.not_not]
  cases h with
  | answer k₀ rest head other self =>
    rw [other] at hk ⊢
    rw [self]
    refine (hc k hk).imp (fun hask => ?_) fun hans => by rwa [Bool.not_not] at hans
    rw [head] at hask
    exact (List.mem_cons.mp hask).resolve_left nofun
  | ask k₀ rest order head other nodup all self =>
    rw [other] at hk ⊢
    rw [self]
    rcases hc k hk with hask | hans
    · rw [head] at hask
      rcases List.mem_cons.mp hask with heq | hask
      · rw [Msg.ask.inj heq]
        exact Or.inr (List.mem_append_right _ List.mem_cons_self)
      · exact Or.inl hask
    · rw [Bool.not_not] at hans
      exact Or.inr (List.mem_append_left _ hans)

/-! ## A side that sends something on its own account -/

section
variable {s s' : State κ} {b : Bool} {more : List (Msg κ)}

omit [DecidableEq κ] in
theorem Covered.of_append (hother : s' (!b) = s !b) (hsent : (s' b).sent = (s b).sent ++ more)
    (hwants : (s' b).wants ⊆ (s b).wants) (hc : Covered s b) : Covered s' b := by
  intro k hk
  rw [hother,hsent]
  exact (hc k (hwants hk)).imp_left (List.mem_append_left _)

omit [DecidableEq κ] in
theorem Covered.other_of_append (hother : s' (!b) = s !b) (hsent : (s' b).sent = (s b).sent ++ more)
    (hc : Covered s !b) : Covered s' !b := by
  intro k hk
  rw [hother] at hk ⊢
  refine (hc k hk).imp_right fun hans => ?_
  rw [Bool.not_not] at hans ⊢
  rw [hsent]
  exact List.mem_append_left _ hans

omit [DecidableEq κ] in
theorem covered_of_asks (hsent : (s' b).sent = (s b).sent ++ more)
    (hall : ∀ k ∈ (s' b).wants, .ask k ∈ more) : Covered s' b := by
  intro k hk
  rw [hsent]
  exact Or.inl (List.mem_append_right _ (hall k hk))

end

/-! ## The first side to ask -/

/-- Side `b` has asked for everything, and the other side has too unless it has still to
receive an ask. -/
structure Started (s : State κ) (b : Bool) : Prop where
  first : Covered s b
  second : Covered s (!b) ∨ ∃ k, .ask k ∈ (s b).sent

theorem Step.started {s s' : State κ} {b c : Bool} (h : Step s c s') (hs : Started s b) :
    Started s' b := by
  by_cases hc : c = b
  · subst hc
    refine ⟨h.covered_self hs.first,hs.second.imp h.covered_other ?_⟩
    rintro ⟨k,hk⟩
    cases h with
    | answer k₀ rest head other self => exact ⟨k,by rwa [self]⟩
    | ask k₀ rest order head other nodup all self =>
      exact ⟨k,by rw [self]; exact List.mem_append_left _ hk⟩
  · obtain rfl : b = !c := by
      rw [Bool.eq_not]
      exact Ne.symm hc
    refine ⟨h.covered_other hs.first,?_⟩
    have hself := hs.second
    rw [Bool.not_not] at hself ⊢
    rcases hself with hcov | ⟨k,hk⟩
    · exact Or.inl (h.covered_self hcov)
    · cases h with
      | answer k₀ rest head other self =>
        rw [head] at hk
        exact Or.inr ⟨k,by rw [other]; exact (List.mem_cons.mp hk).resolve_left nofun⟩
      | ask k₀ rest order head other nodup all self =>
        refine Or.inl fun q hq => Or.inl ?_
        rw [self] at hq ⊢
        rw [← all,List.mem_toFinset] at hq
        exact List.mem_append_right _ (List.mem_cons_of_mem _ (List.mem_map_of_mem hq))

theorem Started.run {s t : State κ} {b : Bool} {hist : List (State κ × Bool)} (h : Started s b)
    (run : Run Step s hist t) : Started t b :=
  run.preserves h fun _ _ _ hs last => last.started hs

omit [DecidableEq κ] in
/-- A side that has sent all of its asks, at least one, and no other message. -/
theorem started_of_asks {s : State κ} {b : Bool} (hall : ∀ k ∈ (s b).wants, .ask k ∈ (s b).sent)
    (hne : (s b).wants.Nonempty) : Started s b := by
  obtain ⟨k,hk⟩ := hne
  exact ⟨fun k hk => Or.inl (hall k hk),Or.inr ⟨k,hall k hk⟩⟩

omit [DecidableEq κ] in
/-- When nothing is on its way, nobody wants anything. -/
theorem Started.wants_eq_empty {s : State κ} {b : Bool} (h : Started s b) (hsent : ∀ c, (s c).sent = [])
    (c : Bool) : (s c).wants = ∅ := by
  have hcov : ∀ d, Covered s d → (s d).wants = ∅ := by
    intro d hd
    refine Finset.eq_empty_of_forall_notMem fun k hk => ?_
    rcases hd k hk with hm | hm
    · rw [hsent] at hm
      exact List.not_mem_nil hm
    · rw [hsent] at hm
      exact List.not_mem_nil hm
  by_cases hc : c = b
  · exact hc ▸ hcov b h.first
  · rw [Bool.eq_not.mpr hc]
    rcases h.second with hcov' | ⟨k,hk⟩
    · exact hcov _ hcov'
    · rw [hsent] at hk
      exact absurd hk List.not_mem_nil

end BTRx.Exchange
