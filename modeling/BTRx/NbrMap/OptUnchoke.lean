import BTRx.Base.Retry
import BTRx.NbrMap.Neighbours

/-! # The optimistic unchoke

`opt_unchoke` draws keys below the number of peers and looks them up in a map that is
keyed by peer ids. It goes on until it finds someone to unchoke, so a key that is not an
id leads to a null pointer, and a table without a candidate to a loop without an end.
-/
namespace BTRx
open Retry
namespace NbrMap

/-- One turn of the loop, on a number that `rand` returns. -/
def optTurn (m : NbrMap) (rand : ℕ) : Except Fault (Option (Bool × NbrMap)) :=
  let size := toInt m.peers.length
  if size = 0 then .error .divByZero
  else do
    -- an unknown key is added with a null pointer, which the next line reads through
    let (k,nbr) ← m.nbrOf ((rand : ℤ).tmod size)
    if nbr.choked && nbr.interested && !nbr.done then
      return some (true,{ m with nbrs := m.nbrs.set k { nbr with choked := false } })
    else
      return none

/-- `NbrMap::opt_unchoke()` after `fuel` turns; `none` while it has not returned. -/
def optUnchoke (m : NbrMap) (rand : ℕ → ℕ) (fuel : ℕ) : Except Fault (Option (Bool × NbrMap)) :=
  if m.npeers ≠ 0 then .ok (some (true,m)) else loop m.optTurn fuel rand

/-- No key is looked up that is not registered, only a candidate is unchoked, and the call
returns when there is none. -/
structure OptRight (m : NbrMap) (rand : ℕ → ℕ) : Prop where
  inspects : ∀ fuel f, m.optUnchoke rand fuel ≠ .error f
  changes : ∀ fuel ret m', m.optUnchoke rand fuel = .ok (some (ret,m')) →
    m' = m ∨ ∃ e ∈ m.candidates, m' = m.unchoke {e.1}
  ends : m.candidates = ∅ → ∃ fuel ret m', m.optUnchoke rand fuel = .ok (some (ret,m')) ∧
    ((∀ e ∈ m.registered, e.2.done = true) → ret = false)

variable {m : NbrMap} {r : ℕ}

theorem unchoke_singleton {k : ℕ} {nbr : Nbr} (h : m.nbrs[k]? = some nbr) :
    { m with nbrs := m.nbrs.set k { nbr with choked := false } } = m.unchoke {k} := by
  have := unchoke_set ∅ h
  rwa [unchoke_empty] at this

/-- A turn that looks up a registered id unchokes its neighbour or passes it over. -/
theorem optTurn_registered (h : m.Linked) (hs : toInt m.peers.length ≠ 0)
    (hk : (r : ℤ).tmod (toInt m.peers.length) ∈ m.peers) :
    m.optTurn r = .ok none ∨ ∃ e ∈ m.candidates, m.optTurn r = .ok (some (true,m.unchoke {e.1})) := by
  obtain ⟨e,he⟩ := h.nbrOf hk
  have hreg : e ∈ m.registered := mem_registered.mpr ⟨_,hk,he⟩
  have hturn : m.optTurn r = if e.2.choked && e.2.interested && !e.2.done then
      .ok (some (true,m.unchoke {e.1})) else .ok none := by
    rw [optTurn,if_neg hs,he,
      ← unchoke_singleton (getElem?_of_registered hreg)]
    rfl
  rw [hturn]
  by_cases hc : (e.2.choked && e.2.interested && !e.2.done) = true
  · rw [if_pos hc]
    refine Or.inr ⟨e,mem_candidates.mpr ⟨hreg,?_⟩,rfl⟩
    simpa [and_assoc] using hc
  · rw [if_neg hc]
    exact Or.inl rfl

/-- Any other turn is a fault. -/
theorem optTurn_unregistered (h : toInt m.peers.length = 0 ∨
    (r : ℤ).tmod (toInt m.peers.length) ∉ m.peerinfo) : ∃ f, m.optTurn r = .error f := by
  by_cases hs : toInt m.peers.length = 0
  · exact ⟨.divByZero,by rw [optTurn,if_pos hs]⟩
  · have hk := AList.lookup_eq_none.mpr (h.resolve_left hs)
    have hnbr : m.nbrOf ((r : ℤ).tmod (toInt m.peers.length)) = .error .nullPointer := by
      rw [nbrOf,hk]
    exact ⟨.nullPointer,by rw [optTurn,if_neg hs,hnbr]; rfl⟩

theorem peers_join (npeers : UInt32) (npcs : ℕ) (ids : List ℤ) : (join npeers npcs ids).peers = ids := by
  induction ids using List.reverseRecOn with
  | nil => rfl
  | append_singleton ids peerid ih =>
    rw [join_concat,registerCli,ih]

theorem mem_peerinfo_join {npeers : UInt32} {npcs : ℕ} {ids : List ℤ} {id : ℤ} :
    id ∈ (join npeers npcs ids).peerinfo ↔ id ∈ ids := by
  constructor
  · induction ids using List.reverseRecOn with
    | nil => exact fun h => nomatch h
    | append_singleton ids peerid ih =>
      intro h
      rw [join_concat,← AList.lookup_isSome,lookup_registerCli] at h
      split_ifs at h with hnew
      · exact List.mem_append_right _ (List.mem_singleton.mpr hnew.1)
      · exact List.mem_append_left _ (ih (AList.lookup_isSome.mp h))
  · exact fun h => (linked_join npeers npcs ids).keys id ((peers_join npeers npcs ids).symm ▸ h)

/-- For fewer peers than `rand` has results, the ids have to be the numbers below the size. -/
theorem draws_registered_iff {ids : List ℤ} {randMax : ℕ} (hpos : ids ≠ [])
    (hlt : ids.length < 2 ^ 31) (hmax : ids.length ≤ randMax + 1) :
    (∀ x ≤ randMax, (x : ℤ).tmod (toInt ids.length) ∈ ids) ↔ ∀ i < ids.length, (i : ℤ) ∈ ids := by
  have hint : toInt ids.length = ids.length := toInt_of_lt (by omega) (by exact_mod_cast hlt)
  have hmod : ∀ x : ℕ, (x : ℤ).tmod (toInt ids.length) = (x % ids.length : ℕ) := by
    intro x
    rw [hint,Int.tmod_eq_emod_of_nonneg (by omega)]
    exact (Int.natCast_mod x ids.length).symm
  simp only [hmod]
  constructor
  · intro h i hi
    have := h i (by omega)
    rwa [Nat.mod_eq_of_lt hi] at this
  · exact fun h x _ => h _ (Nat.mod_lt x (List.length_pos_iff.mpr hpos))

/-- In a table where the keys are the registered ids, the call is right for all numbers
drawn exactly when there is a candidate and every number leads to an id. -/
theorem optRight_iff_of_linked (h : m.Linked) (hkeys : ∀ id, id ∈ m.peerinfo → id ∈ m.peers)
    (hz : m.npeers = 0) (randMax : ℕ) :
    (∀ rand : ℕ → ℕ, (∀ i, rand i ≤ randMax) → OptRight m rand) ↔
      m.candidates.Nonempty ∧ toInt m.peers.length ≠ 0 ∧
        ∀ x ≤ randMax, (x : ℤ).tmod (toInt m.peers.length) ∈ m.peers := by
  have hloop : ∀ rand fuel, m.optUnchoke rand fuel = loop m.optTurn fuel rand :=
    fun rand fuel => if_neg (not_not.mpr hz)
  constructor
  · intro hall
    have hturn : ∀ x ≤ randMax, ∀ f, m.optTurn x ≠ .error f := by
      intro x hx f hf
      obtain ⟨fuel,herr⟩ := (loop_const x (by simp)).mpr hf
      exact (hall _ fun _ => hx).inspects fuel f ((hloop _ _).trans herr)
    have hkey : ∀ x ≤ randMax, toInt m.peers.length ≠ 0 ∧
        (x : ℤ).tmod (toInt m.peers.length) ∈ m.peers := by
      intro x hx
      by_contra hbad
      obtain ⟨f,hf⟩ := optTurn_unregistered (m := m) (r := x) <| by
        by_cases hs : toInt m.peers.length = 0
        · exact Or.inl hs
        · exact Or.inr fun hin => hbad ⟨hs,hkeys _ hin⟩
      exact hturn x hx f hf
    refine ⟨?_,(hkey 0 (Nat.zero_le _)).1,fun x hx => (hkey x hx).2⟩
    -- without a candidate no turn ends the loop
    by_contra hnone
    have hempty := Finset.not_nonempty_iff_eq_empty.mp hnone
    obtain ⟨fuel,ret,m',hret,_⟩ := (hall _ fun _ => Nat.zero_le randMax).ends hempty
    have hends := (loop_const 0 (by simp)).mp ⟨fuel,(hloop _ _).symm.trans hret⟩
    obtain ⟨hs,hin⟩ := hkey 0 (Nat.zero_le _)
    rcases optTurn_registered h hs hin with hgo | ⟨e,he,_⟩
    · rw [hgo] at hends
      cases hends
    · exact hnone ⟨e,he⟩
  · rintro ⟨hsome,hs,hin⟩ rand hrand
    have hturn := fun i => optTurn_registered h hs (hin (rand i) (hrand i))
    refine ⟨fun fuel f hf => ?_,fun fuel ret m' hret => ?_,fun hempty => ?_⟩
    · obtain ⟨i,_,hi,_⟩ := (loop_eq_iff (by simp)).mp ((hloop _ _).symm.trans hf)
      rcases hturn i with hgo | ⟨_,_,hgo⟩ <;> cases hgo.symm.trans hi
    · obtain ⟨i,_,hi,_⟩ := (loop_eq_iff (by simp)).mp ((hloop _ _).symm.trans hret)
      rcases hturn i with hgo | ⟨e,he,hgo⟩
      · cases hgo.symm.trans hi
      · cases hgo.symm.trans hi
        exact Or.inr ⟨e,he,rfl⟩
    · exact absurd hempty hsome.ne_empty

section
variable {npeers : UInt32} {npcs : ℕ} {ids : List ℤ} {nbrs : List Nbr}

/-- A table that registrations have built, with any flags. -/
theorem optUnchoke_right_iff (hlen : nbrs.length = (join npeers npcs ids).nbrs.length)
    (hz : (join npeers npcs ids).npeers = 0) (randMax : ℕ) :
    (∀ rand : ℕ → ℕ, (∀ i, rand i ≤ randMax) → OptRight { join npeers npcs ids with nbrs } rand) ↔
      (candidates { join npeers npcs ids with nbrs }).Nonempty ∧ toInt ids.length ≠ 0 ∧
        ∀ x ≤ randMax, (x : ℤ).tmod (toInt ids.length) ∈ ids := by
  have hpeers := peers_join npeers npcs ids
  have hall := optRight_iff_of_linked ((linked_join npeers npcs ids).write hlen)
    (fun id hid => hpeers.symm ▸ mem_peerinfo_join.mp hid) hz randMax
  simpa only [hpeers] using hall

/-- Two peers whose ids are the numbers below the size. -/
theorem optUnchoke_right_two : OptRight { join 2 1 [1,0] with
    nbrs := [⟨false,false,true,0⟩,⟨true,false,true,0⟩] } (fun i => i % 5) := by
  have hz : (join 2 1 [1,0]).npeers = 0 := by decide
  have hlen : [(⟨false,false,true,0⟩ : Nbr),⟨true,false,true,0⟩].length =
      (join 2 1 [1,0]).nbrs.length := rfl
  have hreg := (@draws_registered_iff [1,0] 2147483647 (by decide) (by decide) (by decide)).mpr
    (by decide)
  refine (optUnchoke_right_iff hlen hz 2147483647).mpr ⟨by decide +kernel,by decide,hreg⟩ _ ?_
  intro i
  have := Nat.mod_lt i (show 0 < 5 by decide)
  omega

/-- A key that is no id, and a table in which all are done. -/
theorem optUnchoke_not_right :
    ¬ OptRight { join 1 1 [1001] with nbrs := [⟨true,false,true,0⟩] } (fun _ => 0) ∧
      ¬ OptRight { join 1 1 [0] with nbrs := [⟨true,true,true,0⟩] } (fun _ => 0) := by
  constructor
  · intro h
    have hkey : ((0 : ℕ) : ℤ).tmod (toInt 1) ∉ (join 1 1 [1001]).peerinfo :=
      mt mem_peerinfo_join.mp (by decide)
    obtain ⟨f,hf⟩ := optTurn_unregistered
      (m := { join 1 1 [1001] with nbrs := [⟨true,false,true,0⟩] }) (Or.inr hkey)
    obtain ⟨fuel,herr⟩ := (loop_const 0 (by simp)).mpr hf
    exact h.inspects fuel f herr
  · intro h
    have hnone : candidates { join 1 1 [0] with nbrs := [⟨true,true,true,0⟩] } = ∅ := by
      decide +kernel
    have hlink : Linked { join 1 1 [0] with nbrs := [⟨true,true,true,0⟩] } :=
      (linked_join 1 1 [0]).write rfl
    have hturn := optTurn_registered (r := 0) hlink (by decide) (by decide)
    obtain ⟨fuel,ret,m',hret,_⟩ := h.ends hnone
    have hends := (loop_const 0 (by simp)).mp ⟨fuel,hret⟩
    rcases hturn with hgo | ⟨e,he,_⟩
    · cases hgo.symm.trans hends
    · rw [hnone] at he
      exact absurd he (Finset.notMem_empty e)

end

end NbrMap

end BTRx
