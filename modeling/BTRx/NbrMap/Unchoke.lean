import BTRx.Base.Transition
import BTRx.NbrMap.NbrMap

/-! # The gate of the unchoke thread

`npeers` counts down from the number of all peers, but a node never registers itself, so
one is left when the last handler has registered. `select_unchoked` returns at its gate
from then on, and the loop of `unchoke_handler` has no other way out. The list of
neighbours grows under the lock and the counter drops after it, in two separate steps.
-/
namespace BTRx
open Transition

/-- The object a peer id leads to; `operator[]` gives a null pointer for an unknown id. -/
def NbrMap.nbrOf (m : NbrMap) (peer : ℤ) : Except Fault (ℕ × Nbr) :=
  match m.peerinfo.lookup peer with
  | none => .error .nullPointer
  | some k =>
    match m.nbrs[k]? with
    | none => .error .danglingPointer
    | some nbr => .ok (k,nbr)

/-- `map<uint32_t, Nbr *, greater<uint32_t>>`, largest key first. -/
abbrev RequestMap := List (UInt32 × ℕ)

/-- `map::insert`, which leaves an existing key alone. -/
def RequestMap.insertNew (k : UInt32) (nbr : ℕ) : RequestMap → RequestMap
  | [] => [(k,nbr)]
  | e :: rest =>
    if e.1 < k then (k,nbr) :: e :: rest
    else if e.1 = k then e :: rest
    else e :: insertNew k nbr rest

/-- The first loop of `select_unchoked`. -/
def NbrMap.requestMap (m : NbrMap) : Except Fault RequestMap :=
  m.peers.foldlM (fun requests peer => do
    let (k,nbr) ← m.nbrOf peer
    return if !nbr.done then RequestMap.insertNew nbr.requests k requests else requests) []

/-- The second loop, which ends when `j` is `n_pref_peers`. -/
def NbrMap.unchokeLoop (nPrefPeers : ℤ) : RequestMap → ℤ → List Nbr → Except Fault (List Nbr)
  | [], _, nbrs => .ok nbrs
  | (_,k) :: rest, j, nbrs =>
    match nbrs[k]? with
    | none => .error .danglingPointer
    | some nbr =>
      let chosen := nbr.choked && nbr.interested
      let nbrs := if chosen then nbrs.set k { nbr with choked := false } else nbrs
      let j := if chosen then j + 1 else j
      if j = nPrefPeers then .ok nbrs else unchokeLoop nPrefPeers rest j nbrs

/-- `NbrMap::select_unchoked(int n_pref_peers)`. -/
def NbrMap.selectUnchoked (m : NbrMap) (nPrefPeers : ℤ) : Except Fault (Bool × NbrMap) := do
  if m.npeers ≠ 0 then return (true,m)
  let requests ← m.requestMap
  if requests = [] then return (false,m)
  let nbrs ← NbrMap.unchokeLoop nPrefPeers requests 0 m.nbrs
  return (true,{ m with nbrs })

/-- The part of `register_cli` up to the release of the lock. -/
def NbrMap.link (m : NbrMap) (peerid : ℤ) : ℕ × NbrMap :=
  let nbr := m.nbrs.length
  (nbr,{ m with
    nbrs := m.nbrs ++ [{ choked := false, done := false, interested := false, requests := 0 }]
    peers := m.peers ++ [peerid]
    peerinfo := m.peerinfo.insertNew peerid nbr })

/-- The end of `register_cli`, after the lock. -/
def NbrMap.count (m : NbrMap) : NbrMap := { m with npeers := m.npeers - 1 }

theorem NbrMap.registerCli_eq (m : NbrMap) (peerid : ℤ) :
    m.registerCli peerid = ((m.link peerid).1,(m.link peerid).2.count) := rfl

/-- `select_unchoked` writes to the neighbours and to nothing else. -/
theorem NbrMap.selectUnchoked_frame {m m' : NbrMap} {nPrefPeers : ℤ} {ret : Bool}
    (h : m.selectUnchoked nPrefPeers = .ok (ret,m')) : ∃ nbrs, m' = { m with nbrs } := by
  unfold NbrMap.selectUnchoked at h
  by_cases hn : m.npeers ≠ 0
  · rw [if_pos hn] at h
    cases h
    exact ⟨_,rfl⟩
  · rw [if_neg hn] at h
    obtain ⟨requests,_,h⟩ := Outcome.bind_eq_ok.mp h
    by_cases hr : requests = []
    · rw [if_pos hr] at h
      cases h
      exact ⟨_,rfl⟩
    · rw [if_neg hr] at h
      obtain ⟨nbrs,_,h⟩ := Outcome.bind_eq_ok.mp h
      cases h
      exact ⟨nbrs,rfl⟩

/-! ## Interleaved registrations -/

/-- How far the handler of a peer has come, with its pointer. -/
inductive Stage
  | waiting
  | linked (nbr : ℕ)
  | registered (nbr : ℕ)
  | done (nbr : ℕ)
  deriving DecidableEq

/-- `register_cli` has returned. -/
def Stage.Completed : Stage → Bool
  | .registered _ => true
  | .done _ => true
  | _ => false

@[simp] theorem Stage.completed_waiting : Stage.waiting.Completed = false := rfl
@[simp] theorem Stage.completed_linked (k : ℕ) : (Stage.linked k).Completed = false := rfl
@[simp] theorem Stage.completed_registered (k : ℕ) : (Stage.registered k).Completed = true := rfl
@[simp] theorem Stage.completed_done (k : ℕ) : (Stage.done k).Completed = true := rfl

def Stage.Done : Stage → Bool
  | .done _ => true
  | _ => false

structure Registry where
  nmap : NbrMap
  stage : ℤ → Stage

inductive RegAct
  | link (peer : ℤ)
  | count (peer : ℤ)
  | finish (peer : ℤ)
  | write (k : ℕ) (choked interested : Bool) (requests : UInt32)
  | select (nPrefPeers : ℤ)

/-- The map as `Node` builds it, before any connection. -/
def Registry.init (ids : List ℤ) (npcs : ℕ) : Registry :=
  ⟨NbrMap.new (UInt32.ofNat ids.length) npcs,fun _ => .waiting⟩

/-- Steps of the handlers of `others`, each of which registers one peer, and of the
threads that write to the flags of a neighbour. -/
inductive RegStep (others : List ℤ) (r : Registry) : RegAct → Registry → Prop
  | link {peer : ℤ} (hp : peer ∈ others) (h : r.stage peer = .waiting) : RegStep others r (.link peer)
      ⟨(r.nmap.link peer).2,Function.update r.stage peer (.linked (r.nmap.link peer).1)⟩
  | count {peer : ℤ} {k : ℕ} (hp : peer ∈ others) (h : r.stage peer = .linked k) :
      RegStep others r (.count peer) ⟨r.nmap.count,Function.update r.stage peer (.registered k)⟩
  | finish {peer : ℤ} {k : ℕ} (hp : peer ∈ others) (h : r.stage peer = .registered k) :
      RegStep others r (.finish peer)
        ⟨{ r.nmap with nbrs := r.nmap.nbrs.modify k fun nbr => { nbr with done := true } },
          Function.update r.stage peer (.done k)⟩
  | write {k : ℕ} {choked interested : Bool} {requests : UInt32} :
      RegStep others r (.write k choked interested requests) { r with nmap := { r.nmap with
        nbrs := r.nmap.nbrs.modify k fun nbr => { nbr with choked, interested, requests } } }
  | select {nPrefPeers : ℤ} {ret : Bool} {m : NbrMap}
      (h : r.nmap.selectUnchoked nPrefPeers = .ok (ret,m)) :
      RegStep others r (.select nPrefPeers) { r with nmap := m }

namespace Registry

/-- The number of peers whose `register_cli` has returned. -/
def completed (others : List ℤ) (r : Registry) : ℕ := others.countP fun peer => (r.stage peer).Completed

/-- The gate is open exactly when all have registered, and once all of them are done the
next `select_unchoked` returns `false`. -/
structure GateOnTime (others : List ℤ) (r : Registry) : Prop where
  opens : r.nmap.npeers = 0 ↔ ∀ peer ∈ others, (r.stage peer).Completed = true
  stops : (∀ peer ∈ others, (r.stage peer).Done = true) →
    ∀ nPrefPeers, ∃ m, r.nmap.selectUnchoked nPrefPeers = .ok (false,m)

/-- Changing the stage of one peer changes the count by that peer. -/
theorem completed_update {others : List ℤ} (hnd : others.Nodup) {peer : ℤ} (hp : peer ∈ others)
    (r : Registry) (m : NbrMap) (s : Stage) :
    completed others ⟨m,Function.update r.stage peer s⟩ +
        (if (r.stage peer).Completed then 1 else 0) =
      completed others r + if s.Completed then 1 else 0 := by
  unfold completed
  induction others with
  | nil => cases hp
  | cons q others ih =>
    obtain ⟨hq,hnd⟩ := List.nodup_cons.mp hnd
    rw [List.countP_cons,List.countP_cons]
    by_cases heq : q = peer
    · subst q
      have hrest : (others.countP fun q => (Function.update r.stage peer s q).Completed) =
          others.countP fun q => (r.stage q).Completed := by
        apply List.countP_congr
        intro q hin
        rw [Function.update_of_ne (by rintro rfl; exact hq hin)]
      simp only [hrest,Function.update_self]
      omega
    · have hin := (List.mem_cons.mp hp).resolve_left (Ne.symm heq)
      have hih := ih hnd hin
      simp only at hih
      simp only [Function.update_of_ne heq]
      omega

variable {others : List ℤ} {r r' : Registry} {a : RegAct}

/-- The counter drops exactly when one more registration is complete. -/
theorem step_npeers (hnd : others.Nodup) (h : RegStep others r a r') :
    r'.nmap.npeers + UInt32.ofNat (r'.completed others) =
      r.nmap.npeers + UInt32.ofNat (r.completed others) := by
  cases h with
  | @link peer hp hs =>
    have hc := completed_update hnd hp r (r.nmap.link peer).2 (.linked (r.nmap.link peer).1)
    simp only [hs,Stage.completed_waiting,Stage.completed_linked,Bool.false_eq_true,if_false,
      Nat.add_zero] at hc
    rw [hc]
    rfl
  | @count peer k hp hs =>
    have hc := completed_update hnd hp r r.nmap.count (.registered k)
    simp only [hs,Stage.completed_linked,Stage.completed_registered,Bool.false_eq_true,if_false,
      if_true,Nat.add_zero] at hc
    have hone : UInt32.ofNat 1 = 1 := rfl
    rw [hc,UInt32.ofNat_add,hone,UInt32.add_comm _ 1,← UInt32.add_assoc]
    simp only [NbrMap.count,UInt32.sub_add_cancel]
  | @finish peer k hp hs =>
    have hc := completed_update hnd hp r
      { r.nmap with nbrs := r.nmap.nbrs.modify k fun nbr => { nbr with done := true } } (.done k)
    simp only [hs,Stage.completed_registered,Stage.completed_done,if_true,
      Nat.add_right_cancel_iff] at hc
    rw [hc]
  | write => rfl
  | select hsel =>
    obtain ⟨nbrs,rfl⟩ := NbrMap.selectUnchoked_frame hsel
    rfl

theorem completed_le (others : List ℤ) (r : Registry) : r.completed others ≤ others.length :=
  List.countP_le_length

theorem completed_eq_length (others : List ℤ) (r : Registry) :
    r.completed others = others.length ↔ ∀ peer ∈ others, (r.stage peer).Completed = true :=
  List.countP_eq_length

/-- In every interleaving the gate is right as long as a peer is missing, unless the
counter starts out as a multiple of `2 ^ 32`; after the last registration it is wrong. -/
theorem gateOnTime_iff {ids : List ℤ} {self : ℤ} {npcs : ℕ} (hnd : ids.Nodup) (hself : self ∈ ids)
    {hist : List (Registry × RegAct)} {t : Registry}
    (run : Run (RegStep (ids.erase self)) (init ids npcs) hist t) :
    t.GateOnTime (ids.erase self) ↔ t.completed (ids.erase self) < ids.length - 1 ∧
      ¬ 2 ^ 32 ∣ ids.length - t.completed (ids.erase self) := by
  have hnd' : (ids.erase self).Nodup := hnd.erase self
  have hlen : (ids.erase self).length = ids.length - 1 := List.length_erase_of_mem hself
  have hpos : 0 < ids.length := List.length_pos_of_mem hself
  have hcount : t.nmap.npeers + UInt32.ofNat (t.completed (ids.erase self)) =
      UInt32.ofNat ids.length := by
    refine run.preserves (P := fun r => r.nmap.npeers + UInt32.ofNat (r.completed (ids.erase self)) =
      UInt32.ofNat ids.length) ?_ fun r a r' h hstep => (step_npeers hnd' hstep).trans h
    have hzero : (init ids npcs).completed (ids.erase self) = 0 := by
      rw [completed,List.countP_eq_zero]
      intro peer _
      exact Bool.false_ne_true
    rw [hzero]
    exact add_zero _
  generalize hk : t.completed (ids.erase self) = k at hcount ⊢
  have hle : k ≤ ids.length - 1 := by
    rw [← hk,← hlen]
    exact completed_le _ t
  have hall : (∀ peer ∈ ids.erase self, (t.stage peer).Completed = true) ↔ k = ids.length - 1 := by
    rw [← completed_eq_length,hk,hlen]
  have hzero : t.nmap.npeers = 0 ↔ 2 ^ 32 ∣ ids.length - k := by
    have hsub : t.nmap.npeers = UInt32.ofNat (ids.length - k) := by
      have hsplit : ids.length = (ids.length - k) + k := by omega
      rw [hsplit,UInt32.ofNat_add] at hcount
      exact add_right_cancel hcount
    rw [hsub,← UInt32.toNat_inj,UInt32.toNat_ofNat',Nat.dvd_iff_mod_eq_zero]
    rfl
  have hone : ¬ 2 ^ 32 ∣ 1 := by decide
  constructor
  · intro h
    have hopen := h.opens
    rw [hzero,hall] at hopen
    have hlt : k ≠ ids.length - 1 := by
      intro heq
      have hd := hopen.mpr heq
      rw [show ids.length - k = 1 by omega] at hd
      exact hone hd
    exact ⟨by omega,fun hd => hlt (hopen.mp hd)⟩
  · rintro ⟨hlt,hd⟩
    refine ⟨?_,fun hdone => ?_⟩
    · rw [hzero,hall]
      constructor
      · exact fun h => absurd h hd
      · omega
    · have hcomp : ∀ peer ∈ ids.erase self, (t.stage peer).Completed = true := by
        intro peer hp
        have hst := hdone peer hp
        cases hs : t.stage peer <;> simp_all [Stage.Done,Stage.Completed]
      have := hall.mp hcomp
      omega

/-- One of two other peers has registered. -/
theorem gateOnTime_first : ∃ hist t, Run (RegStep ([1,2,3].erase 1)) (init [1,2,3] 1) hist t ∧
    (t.stage 2).Completed = true ∧ t.GateOnTime ([1,2,3].erase 1) := by
  have hlink : RegStep ([1,2,3].erase 1) (init [1,2,3] 1) (.link 2) _ := .link (by decide) rfl
  have run := (Run.refl.tail hlink).tail (a := .count 2) (.count (by decide) rfl)
  exact ⟨_,_,run,rfl,(gateOnTime_iff (by decide) (by decide) run).mpr (by decide)⟩

/-- The only other peer has registered, and the counter is 1. -/
theorem gate_not_onTime : ∃ hist t, Run (RegStep ([1,2].erase 1)) (init [1,2] 1) hist t ∧
    ¬ t.GateOnTime ([1,2].erase 1) := by
  have hlink : RegStep ([1,2].erase 1) (init [1,2] 1) (.link 2) _ := .link (by decide) rfl
  have run := (Run.refl.tail hlink).tail (a := .count 2) (.count (by decide) rfl)
  refine ⟨_,_,run,fun h => ?_⟩
  have hzero := h.opens.mpr (by decide)
  exact absurd hzero (by decide)

end Registry

end BTRx
