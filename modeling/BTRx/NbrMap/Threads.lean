import BTRx.NbrMap.OptUnchoke

/-! # The two unchoke threads, step by step

`unchoke_handler` and `opt_unchoke_handler` sleep, call their function and end when it returns
`false`. Handlers run between any two turns of the loops inside, so a step here is one turn: an
entry of the list that is looked up, a flag that is cleared, a number that is drawn. Without
anyone in between, the steps of a call are the call.
-/
namespace BTRx
open Retry

/-- Where `unchoke_handler` stands; the loop over `peers` keeps the end it began with. -/
inductive Unchoker
  | sleeping
  | collecting (todo : List ℤ) (requests : RequestMap)
  | clearing (todo : RequestMap) (j : ℤ)
  | left

/-- Where `opt_unchoke_handler` stands. -/
inductive OptUnchoker
  | sleeping
  | drawing
  | left
  deriving DecidableEq

def Unchoker.step (nPrefPeers : ℤ) (m : NbrMap) : Unchoker → Except Fault (Unchoker × NbrMap)
  | .sleeping => if m.npeers ≠ 0 then .ok (.sleeping,m) else .ok (.collecting m.peers [],m)
  | .collecting (peer :: todo) requests => do
    let (k,nbr) ← m.nbrOf peer
    return (.collecting todo
      (if !nbr.done then RequestMap.insertNew nbr.requests k requests else requests),m)
  | .collecting [] requests =>
    if requests = [] then .ok (.left,m) else .ok (.clearing requests 0,m)
  | .clearing [] _ => .ok (.sleeping,m)
  | .clearing ((_,k) :: rest) j =>
    match m.nbrs[k]? with
    | none => .error .danglingPointer
    | some nbr =>
      let chosen := nbr.choked && nbr.interested
      let nbrs := if chosen then m.nbrs.set k { nbr with choked := false } else m.nbrs
      let j := if chosen then j + 1 else j
      .ok (if j = nPrefPeers then .sleeping else .clearing rest j,{ m with nbrs })
  | .left => .ok (.left,m)

def OptUnchoker.step (m : NbrMap) (rand : ℕ) : OptUnchoker → Except Fault (OptUnchoker × NbrMap)
  | .sleeping => if m.npeers ≠ 0 then .ok (.sleeping,m) else .ok (.drawing,m)
  | .drawing => do
    match ← m.optTurn rand with
    | none => return (.drawing,m)
    | some (ret,m) => return (if ret then .sleeping else .left,m)
  | .left => .ok (.left,m)

/-! ## The calls -/

section
variable {nPrefPeers : ℤ} {m m' : NbrMap} {ret : Bool}

def Unchoker.Steps (nPrefPeers : ℤ) (a b : Unchoker × NbrMap) : Prop := a.1.step nPrefPeers a.2 = .ok b

theorem Unchoker.collect_staged {todo : List ℤ} {requests requests' : RequestMap}
    (h : todo.foldlM (fun requests peer => do
      let (k,nbr) ← m.nbrOf peer
      return if !nbr.done then RequestMap.insertNew nbr.requests k requests else requests) requests =
        .ok requests') :
    Relation.ReflTransGen (Steps nPrefPeers) (.collecting todo requests,m) (.collecting [] requests',m) := by
  induction todo generalizing requests with
  | nil =>
    cases h
    exact .refl
  | cons peer todo ih =>
    rw [List.foldlM_cons] at h
    obtain ⟨next,hnext,h⟩ := Outcome.bind_eq_ok.mp h
    refine Relation.ReflTransGen.head ?_ (ih h)
    obtain ⟨⟨k,nbr⟩,hnbr,hnext⟩ := Outcome.bind_eq_ok.mp hnext
    cases hnext
    simp only [Steps,step,hnbr,Outcome.ok_bind,Outcome.pure_eq]

theorem Unchoker.step_clearing {r : UInt32} {k : ℕ} {rest : RequestMap} {j : ℤ} {nbr : Nbr}
    (h : m.nbrs[k]? = some nbr) : (Unchoker.clearing ((r,k) :: rest) j).step nPrefPeers m =
      .ok (if (if nbr.choked && nbr.interested then j + 1 else j) = nPrefPeers then .sleeping
          else .clearing rest (if nbr.choked && nbr.interested then j + 1 else j),
        { m with nbrs := if nbr.choked && nbr.interested then m.nbrs.set k { nbr with choked := false }
          else m.nbrs }) := by
  simp only [step,h]

theorem Unchoker.clear_staged {todo : RequestMap} {j : ℤ} {nbrs nbrs' : List Nbr}
    (h : NbrMap.unchokeLoop nPrefPeers todo j nbrs = .ok nbrs') : Relation.ReflTransGen (Steps nPrefPeers)
      (.clearing todo j,{ m with nbrs }) (.sleeping,{ m with nbrs := nbrs' }) := by
  induction todo generalizing j nbrs with
  | nil =>
    cases h
    exact .single rfl
  | cons e todo ih =>
    obtain ⟨r,k⟩ := e
    unfold NbrMap.unchokeLoop at h
    split at h
    · cases h
    · rename_i nbr hnbr
      have hstep := @step_clearing nPrefPeers { m with nbrs } r k todo j nbr hnbr
      simp only at h
      by_cases hj : (if nbr.choked && nbr.interested then j + 1 else j) = nPrefPeers
      · rw [if_pos hj] at h hstep
        cases h
        exact .single hstep
      · rw [if_neg hj] at h hstep
        exact .head hstep (ih h)

/-- A call of `select_unchoked` with its steps taken together. -/
theorem Unchoker.selectUnchoked_staged (h : m.selectUnchoked nPrefPeers = .ok (ret,m')) :
    Relation.ReflTransGen (Steps nPrefPeers) (.sleeping,m) (if ret then .sleeping else .left,m') := by
  unfold NbrMap.selectUnchoked at h
  by_cases hn : m.npeers ≠ 0
  · rw [if_pos hn] at h
    cases h
    exact .refl
  · rw [if_neg hn] at h
    obtain ⟨requests,hrequests,h⟩ := Outcome.bind_eq_ok.mp h
    have hopen : Steps nPrefPeers (.sleeping,m) (.collecting m.peers [],m) := if_neg hn
    refine .head hopen ((collect_staged hrequests).trans ?_)
    by_cases hr : requests = []
    · rw [if_pos hr] at h
      cases h
      exact .single (by simp [Steps,step,hr])
    · rw [if_neg hr] at h
      obtain ⟨nbrs,hnbrs,h⟩ := Outcome.bind_eq_ok.mp h
      cases h
      exact .head (by simp [Steps,step,hr]) (clear_staged hnbrs)

def OptUnchoker.Steps (a b : OptUnchoker × NbrMap) : Prop := ∃ rand, a.1.step a.2 rand = .ok b

theorem OptUnchoker.draw_staged {fuel : ℕ} {rand : ℕ → ℕ}
    (h : loop m.optTurn fuel rand = .ok (some (ret,m'))) :
    Relation.ReflTransGen Steps (.drawing,m) (if ret then .sleeping else .left,m') := by
  obtain ⟨i,_,hlast,hbefore⟩ := (loop_eq_iff (by simp)).mp h
  have hend : Steps (.drawing,m) (if ret then .sleeping else .left,m') := by
    refine ⟨rand i,?_⟩
    simp only [step,hlast,Outcome.ok_bind,Outcome.pure_eq]
  refine .tail ?_ hend
  clear hlast hend
  induction i with
  | zero => exact .refl
  | succ i ih =>
    have hgo : Steps (.drawing,m) (.drawing,m) := by
      refine ⟨rand i,?_⟩
      simp only [step,hbefore i (by omega),Outcome.ok_bind,Outcome.pure_eq]
    exact .tail (ih (by omega) fun j hj => hbefore j (by omega)) hgo

/-- A call of `opt_unchoke` that returns. -/
theorem OptUnchoker.optUnchoke_staged {fuel : ℕ} {rand : ℕ → ℕ}
    (h : m.optUnchoke rand fuel = .ok (some (ret,m'))) :
    Relation.ReflTransGen Steps (.sleeping,m) (if ret then .sleeping else .left,m') := by
  unfold NbrMap.optUnchoke at h
  by_cases hn : m.npeers ≠ 0
  · rw [if_pos hn] at h
    cases h
    exact .refl
  · rw [if_neg hn] at h
    exact .head ⟨0,if_neg hn⟩ (draw_staged h)

end

/-! ## What a step writes -/

/-- The flag of one object is cleared. -/
def NbrMap.clear (k : ℕ) (m : NbrMap) : NbrMap :=
  { m with nbrs := m.nbrs.modify k fun nbr => { nbr with choked := false } }

/-- The object whose flag the next step of `unchoke_handler` clears. -/
def Unchoker.clears (m : NbrMap) : Unchoker → Option ℕ
  | .clearing ((_,k) :: _) _ =>
    if (m.nbrs[k]?).any fun nbr => nbr.choked && nbr.interested then some k else none
  | _ => none

/-- The same for `opt_unchoke_handler`. -/
def OptUnchoker.clears (m : NbrMap) (rand : ℕ) : OptUnchoker → Option ℕ
  | .drawing =>
    match m.nbrOf ((rand : ℤ).tmod (toInt m.peers.length)) with
    | .ok (k,nbr) => if nbr.choked && nbr.interested && !nbr.done then some k else none
    | .error _ => none
  | _ => none

section
variable {nPrefPeers : ℤ} {m m' : NbrMap} {u u' : Unchoker} {o o' : OptUnchoker} {rand : ℕ}

theorem NbrMap.clear_of_getElem? {k : ℕ} {nbr : Nbr} (h : m.nbrs[k]? = some nbr) :
    { m with nbrs := m.nbrs.set k { nbr with choked := false } } = m.clear k := by
  rw [clear,List.modify_eq_set_getElem?,h]
  rfl

/-- A step clears a flag of a choked neighbour or writes nothing. -/
theorem Unchoker.step_clears (h : u.step nPrefPeers m = .ok (u',m')) :
    u.clears m = none ∧ m' = m ∨ ∃ k nbr, u.clears m = some k ∧ m.nbrs[k]? = some nbr ∧
      nbr.choked = true ∧ m' = m.clear k := by
  unfold step at h
  split at h
  · split at h <;> cases h <;> exact Or.inl ⟨rfl,rfl⟩
  · obtain ⟨⟨k,nbr⟩,_,h⟩ := Outcome.bind_eq_ok.mp h
    cases h
    exact Or.inl ⟨rfl,rfl⟩
  · split at h <;> cases h <;> exact Or.inl ⟨rfl,rfl⟩
  · cases h
    exact Or.inl ⟨rfl,rfl⟩
  · rename_i r k rest j
    split at h
    · cases h
    · rename_i nbr hnbr
      obtain ⟨_,rfl⟩ := Prod.mk.inj (Except.ok.inj h)
      by_cases hc : (nbr.choked && nbr.interested) = true
      · refine Or.inr ⟨k,nbr,by simp [clears,hnbr,hc],hnbr,(Bool.and_eq_true_iff.mp hc).1,?_⟩
        simp only [if_pos hc]
        exact NbrMap.clear_of_getElem? hnbr
      · exact Or.inl ⟨by simp [clears,hnbr,hc],by simp [hc]⟩
  · cases h
    exact Or.inl ⟨rfl,rfl⟩

theorem OptUnchoker.step_clears (h : o.step m rand = .ok (o',m')) :
    o.clears m rand = none ∧ m' = m ∧ (o = .drawing → o' = .drawing) ∨
      ∃ k nbr, o.clears m rand = some k ∧ m.nbrs[k]? = some nbr ∧ nbr.choked = true ∧
        m' = m.clear k := by
  unfold step at h
  split at h
  · split at h <;> cases h <;> exact Or.inl (by simp [clears])
  · obtain ⟨t,ht,h⟩ := Outcome.bind_eq_ok.mp h
    unfold NbrMap.optTurn at ht
    simp only at ht
    split at ht
    · cases ht
    · obtain ⟨⟨k,nbr⟩,hnbr,ht⟩ := Outcome.bind_eq_ok.mp ht
      have hk := (NbrMap.nbrOf_eq_ok.mp hnbr).2
      by_cases hc : (nbr.choked && nbr.interested && !nbr.done) = true
      · rw [if_pos hc] at ht
        cases ht
        cases h
        have hchoked : nbr.choked = true := by
          rw [Bool.and_eq_true,Bool.and_eq_true] at hc
          exact hc.1.1
        exact Or.inr ⟨k,nbr,by simp only [clears,hnbr,if_pos hc],hk,hchoked,NbrMap.clear_of_getElem? hk⟩
      · rw [if_neg hc] at ht
        cases ht
        cases h
        exact Or.inl ⟨by simp only [clears,hnbr,if_neg hc],rfl,fun _ => rfl⟩
  · cases h
    exact Or.inl (by simp [clears])

/-- `opt_unchoke` does not return `false`. -/
theorem OptUnchoker.step_ne_left (ho : o ≠ .left) (h : o.step m rand = .ok (o',m')) : o' ≠ .left := by
  unfold step at h
  split at h
  · split at h <;> cases h <;> simp
  · obtain ⟨t,ht,h⟩ := Outcome.bind_eq_ok.mp h
    unfold NbrMap.optTurn at ht
    simp only at ht
    split at ht
    · cases ht
    · obtain ⟨⟨k,nbr⟩,_,ht⟩ := Outcome.bind_eq_ok.mp ht
      by_cases hc : (nbr.choked && nbr.interested && !nbr.done) = true
      · rw [if_pos hc] at ht
        cases ht
        cases h
        simp
      · rw [if_neg hc] at ht
        cases ht
        cases h
        simp
  · exact absurd rfl ho

end

end BTRx
