import BTRx.NbrMap.Unchoke

/-! # The registered neighbours

The table leads from each peer of the list to an object. Both unchoking threads look at
the objects of the registered peers, and the only thing they may do to one is to clear
its `choked` flag.
-/
namespace BTRx
namespace NbrMap

/-- Each peer of the list has an entry, and each entry points to an object. -/
structure Linked (m : NbrMap) : Prop where
  keys : ∀ peer ∈ m.peers, peer ∈ m.peerinfo
  entries : ∀ peer k, m.peerinfo.lookup peer = some k → k < m.nbrs.length

/-- The objects of the registered peers, in the order of the list. -/
def registered (m : NbrMap) : List (ℕ × Nbr) := m.peers.filterMap fun peer => (m.nbrOf peer).toOption

/-- The neighbours that can be unchoked. -/
def candidates (m : NbrMap) : Finset (ℕ × Nbr) :=
  (m.registered.filter fun e => e.2.choked && e.2.interested && !e.2.done).toFinset

/-- Clears `choked` of some objects. -/
def unchoke (U : Finset ℕ) (m : NbrMap) : NbrMap :=
  { m with nbrs := m.nbrs.mapIdx fun k nbr => if k ∈ U then { nbr with choked := false } else nbr }

variable {m : NbrMap} {peer : ℤ} {k : ℕ} {nbr : Nbr} {e : ℕ × Nbr}

theorem nbrOf_eq_ok :
    m.nbrOf peer = .ok (k,nbr) ↔ m.peerinfo.lookup peer = some k ∧ m.nbrs[k]? = some nbr := by
  unfold nbrOf
  cases hp : m.peerinfo.lookup peer with
  | none => simp
  | some i =>
    cases hi : m.nbrs[i]? with
    | none =>
      simp only [hi,reduceCtorEq,Option.some.injEq,false_iff,not_and]
      rintro rfl
      simp [hi]
    | some nbr' =>
      simp only [hi,Except.ok.injEq,Prod.mk.injEq,Option.some.injEq]
      constructor
      · rintro ⟨rfl,rfl⟩
        exact ⟨rfl,hi⟩
      · rintro ⟨rfl,h⟩
        exact ⟨rfl,Option.some.inj (hi.symm.trans h)⟩

theorem mem_registered : e ∈ m.registered ↔ ∃ peer ∈ m.peers, m.nbrOf peer = .ok e := by
  rw [registered,List.mem_filterMap]
  apply exists_congr
  intro peer
  apply and_congr_right
  intro _
  cases m.nbrOf peer <;> simp [Except.toOption]

theorem mem_candidates : e ∈ m.candidates ↔ e ∈ m.registered ∧
    e.2.choked = true ∧ e.2.interested = true ∧ e.2.done = false := by
  simp [candidates,and_assoc]

theorem getElem?_of_registered (h : e ∈ m.registered) : m.nbrs[e.1]? = some e.2 := by
  obtain ⟨peer,_,h⟩ := mem_registered.mp h
  exact (nbrOf_eq_ok.mp h).2

theorem Linked.nbrOf (h : m.Linked) (hp : peer ∈ m.peers) : ∃ e, m.nbrOf peer = .ok e := by
  obtain ⟨k,hk⟩ := Option.isSome_iff_exists.mp (AList.lookup_isSome.mpr (h.keys peer hp))
  have hlt := h.entries peer k hk
  exact ⟨(k,m.nbrs[k]),nbrOf_eq_ok.mpr ⟨hk,List.getElem?_eq_getElem hlt⟩⟩

/-! ## Tables built by registrations -/

/-- The table after the peers of a list have registered. -/
def join (npeers : UInt32) (npcs : ℕ) (ids : List ℤ) : NbrMap :=
  ids.foldl (fun m peerid => (m.registerCli peerid).2) (NbrMap.new npeers npcs)

theorem join_concat (npeers : UInt32) (npcs : ℕ) (ids : List ℤ) (peerid : ℤ) :
    join npeers npcs (ids ++ [peerid]) = ((join npeers npcs ids).registerCli peerid).2 := by
  rw [join,List.foldl_append]
  rfl

theorem lookup_registerCli (m : NbrMap) (peerid : ℤ) :
    (m.registerCli peerid).2.peerinfo.lookup peer =
      if peer = peerid ∧ peerid ∉ m.peerinfo then some m.nbrs.length else m.peerinfo.lookup peer := by
  by_cases hin : peerid ∈ m.peerinfo
  · rw [if_neg fun h => h.2 hin,registerCli,PosMap.insertNew,if_pos hin]
  · rw [registerCli,PosMap.lookup_insertNew (AList.lookup_eq_none.mpr hin)]
    simp [hin]

theorem linked_new (npeers : UInt32) (npcs : ℕ) : (NbrMap.new npeers npcs).Linked :=
  ⟨fun _ h => absurd h List.not_mem_nil,fun _ _ h => nomatch h⟩

theorem Linked.registerCli (h : m.Linked) (peerid : ℤ) : (m.registerCli peerid).2.Linked := by
  have hlen : (m.registerCli peerid).2.nbrs.length = m.nbrs.length + 1 := List.length_append
  refine ⟨fun peer hp => ?_,fun peer k hk => ?_⟩
  · rw [← AList.lookup_isSome,lookup_registerCli]
    split_ifs with hnew
    · rfl
    · rw [AList.lookup_isSome]
      rcases List.mem_append.mp hp with hp | hp
      · exact h.keys peer hp
      · obtain rfl := List.mem_singleton.mp hp
        exact by_contra fun hin => hnew ⟨rfl,hin⟩
  · rw [lookup_registerCli] at hk
    split_ifs at hk with hnew
    · have := Option.some.inj hk
      omega
    · have := h.entries peer k hk
      omega

/-- Any registrations leave a linked table, and writes to the flags keep it so. -/
theorem linked_join (npeers : UInt32) (npcs : ℕ) (ids : List ℤ) : (join npeers npcs ids).Linked := by
  induction ids using List.reverseRecOn with
  | nil => exact linked_new npeers npcs
  | append_singleton ids peerid ih =>
    rw [join_concat]
    exact ih.registerCli peerid

theorem Linked.write (h : m.Linked) {nbrs : List Nbr} (hlen : nbrs.length = m.nbrs.length) :
    Linked { m with nbrs } :=
  ⟨h.keys,fun peer k hk => (h.entries peer k hk).trans_eq hlen.symm⟩

/-! ## Clearing `choked` -/

theorem unchoke_getElem? (U : Finset ℕ) (m : NbrMap) (k : ℕ) : (m.unchoke U).nbrs[k]? =
    (m.nbrs[k]?).map fun nbr => if k ∈ U then { nbr with choked := false } else nbr :=
  List.getElem?_mapIdx

/-- A table that differs in the objects only is fixed by them. -/
theorem eq_unchoke {m' : NbrMap} {U : Finset ℕ} (hrest : m' = { m with nbrs := m'.nbrs })
    (h : ∀ k, m'.nbrs[k]? =
      (m.nbrs[k]?).map fun nbr => if k ∈ U then { nbr with choked := false } else nbr) :
    m' = m.unchoke U := by
  have hnbrs : m'.nbrs = (m.unchoke U).nbrs :=
    List.ext_getElem? fun k => (h k).trans (unchoke_getElem? U m k).symm
  rw [hrest,hnbrs]
  rfl

theorem unchoke_empty (m : NbrMap) : m.unchoke ∅ = m :=
  (eq_unchoke rfl fun k => by simp).symm

/-- Clearing one flag first. -/
theorem unchoke_set (U : Finset ℕ) (h : m.nbrs[k]? = some nbr) :
    unchoke U { m with nbrs := m.nbrs.set k { nbr with choked := false } } =
      m.unchoke (insert k U) := by
  obtain ⟨hlt,_⟩ := List.getElem?_eq_some_iff.mp h
  refine eq_unchoke rfl fun i => ?_
  rw [unchoke_getElem?,List.getElem?_set]
  by_cases hi : k = i
  · subst hi
    rw [if_pos rfl,if_pos hlt,h,Option.map_some,Option.map_some,if_pos (Finset.mem_insert_self k U)]
    split_ifs <;> rfl
  · have hins : i ∈ insert k U ↔ i ∈ U := by
      rw [Finset.mem_insert]
      exact or_iff_right (Ne.symm hi)
    simp only [hi,if_false,hins]

end NbrMap

end BTRx
