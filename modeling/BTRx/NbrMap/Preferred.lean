import BTRx.Base.Ranking
import BTRx.NbrMap.Neighbours

/-! # The choice of preferred neighbours

`select_unchoked` sorts the neighbours that are not done in a `map` keyed by their request
counts. The map keeps the first one of each count and loses the others, and the loop over
it compares its counter with `n_pref_peers` only after it has unchoked someone.
-/
namespace BTRx
open Ranking

/-- Inserting into the map is inserting into a ranked list. -/
theorem RequestMap.insertNew_eq (k : UInt32) (nbr : ℕ) (requests : RequestMap) :
    requests.insertNew k nbr = insertFirst (fun e => e.1.toNat) (k,nbr) requests := by
  induction requests with
  | nil => rfl
  | cons e rest ih =>
    simp only [insertNew,insertFirst,ih,UInt32.lt_iff_toNat_lt,UInt32.toNat_inj]

namespace NbrMap

/-- The count that neighbours are ranked by. -/
def rate (e : ℕ × Nbr) : ℕ := e.2.requests.toNat

/-- The registered neighbours that are not done. -/
def active (m : NbrMap) : List (ℕ × Nbr) := m.registered.filter (!·.2.done)

/-- The candidates that come first among the active neighbours of their count. -/
def leaders (m : NbrMap) : Finset (ℕ × Nbr) :=
  m.candidates.filter fun e => m.active.find? (fun x => rate x = rate e) = some e

/-- `false` exactly when all are done; otherwise the best `n` candidates are unchoked. -/
structure Prefers (m : NbrMap) (n : ℕ) (ret : Bool) (m' : NbrMap) : Prop where
  stops : ret = false ↔ ∀ e ∈ m.registered, e.2.done = true
  rests : ret = false → m' = m
  selects : ret = true → ∃ U, Top rate n m.candidates U ∧ m' = m.unchoke (U.image Prod.fst)

/-- No candidate leads all active neighbours when no one is to be chosen, and a candidate
that does not come first in its count is matched by `n` that do. -/
structure Separated (m : NbrMap) (n : ℕ) : Prop where
  zero : n = 0 → ∀ e ∈ m.leaders, ∃ x ∈ m.active, rate e < rate x
  ties : ∀ e ∈ m.candidates, e ∉ m.leaders → n ≤ (m.leaders.filter (rate e ≤ rate ·)).card

/-- The neighbours in the map, in its order. -/
def ranked (m : NbrMap) : List (ℕ × Nbr) := collect rate m.active

/-- What the loop tests. -/
def Ready (e : ℕ × Nbr) : Bool := e.2.choked && e.2.interested

variable {m : NbrMap} {e : ℕ × Nbr} {n : ℕ}

theorem mem_active : e ∈ m.active ↔ e ∈ m.registered ∧ e.2.done = false := by
  simp [active]

theorem mem_candidates_iff_active : e ∈ m.candidates ↔ e ∈ m.active ∧ Ready e = true := by
  rw [mem_candidates,mem_active,Ready,Bool.and_eq_true]
  tauto

theorem active_eq_nil : m.active = [] ↔ ∀ e ∈ m.registered, e.2.done = true := by
  simp [active,List.filter_eq_nil_iff]

/-- The leaders are the candidates in the map. -/
theorem toFinset_filter_ranked (m : NbrMap) : (m.ranked.filter Ready).toFinset = m.leaders := by
  ext e
  rw [List.mem_toFinset,List.mem_filter,ranked,leaders,Finset.mem_filter,mem_candidates_iff_active]
  constructor
  · rintro ⟨he,hr⟩
    exact ⟨⟨mem_of_mem_collect he,hr⟩,mem_collect.mp he⟩
  · rintro ⟨⟨_,hr⟩,he⟩
    exact ⟨mem_collect.mpr he,hr⟩

/-! ## The loop that fills the map -/

theorem foldlM_registered (h : m.Linked) {peers : List ℤ} (hp : peers ⊆ m.peers) (requests : RequestMap) :
    peers.foldlM (fun requests peer => do
      let (k,nbr) ← m.nbrOf peer
      return if !nbr.done then RequestMap.insertNew nbr.requests k requests else requests) requests =
    .ok ((peers.filterMap fun peer => (m.nbrOf peer).toOption).foldl (fun requests e =>
      if !e.2.done then RequestMap.insertNew e.2.requests e.1 requests else requests) requests) := by
  induction peers generalizing requests with
  | nil => rfl
  | cons peer peers ih =>
    obtain ⟨hpeer,hpeers⟩ := List.cons_subset.mp hp
    obtain ⟨e,he⟩ := h.nbrOf hpeer
    have hsome : (m.nbrOf peer).toOption = some e := by
      rw [he]
      rfl
    rw [List.foldlM_cons,List.filterMap_cons,hsome,he]
    exact ih hpeers _

theorem requestMap_eq (h : m.Linked) :
    m.requestMap = .ok (m.ranked.map fun e => (e.2.requests,e.1)) := by
  rw [requestMap,foldlM_registered h (List.Subset.refl m.peers),← registered,← List.foldl_filter,
    ← active]
  have hmap := collect_map (fun e : UInt32 × ℕ => e.1.toNat)
    (fun e : ℕ × Nbr => (e.2.requests,e.1)) m.active
  rw [collect,List.foldl_map] at hmap
  simp only [RequestMap.insertNew_eq]
  rw [hmap]
  rfl

/-! ## The loop that unchokes -/

/-- The loop clears what a selection with a counter picks. -/
theorem unchokeLoop_eq {l : List (ℕ × Nbr)} (hnd : (l.map Prod.fst).Nodup)
    (hl : ∀ e ∈ l, m.nbrs[e.1]? = some e.2) (j : ℕ) :
    unchokeLoop n (l.map fun e => (e.2.requests,e.1)) j m.nbrs =
      .ok (m.unchoke ((pick Ready n l j).map Prod.fst).toFinset).nbrs := by
  induction l generalizing m j with
  | nil =>
    rw [pick,List.map_nil,List.map_nil,List.toFinset_nil,unchoke_empty]
    rfl
  | cons e l ih =>
    obtain ⟨he,hl⟩ := List.forall_mem_cons.mp hl
    obtain ⟨hnotin,hnd⟩ := List.nodup_cons.mp hnd
    rw [List.map_cons,unchokeLoop,he]
    cases hr : Ready e with
    | false =>
      have hr' : (e.2.choked && e.2.interested) = false := hr
      simp only [hr',pick,hr,Bool.false_eq_true,if_false,Nat.cast_inj]
      by_cases hj : j = n
      · simp only [hj,if_true]
        rw [List.map_nil,List.toFinset_nil,unchoke_empty]
      · simp only [hj,if_false]
        exact ih hnd hl j
    | true =>
      have hr' : (e.2.choked && e.2.interested) = true := hr
      have hcast : (j : ℤ) + 1 = ((j + 1 : ℕ) : ℤ) := by push_cast; rfl
      simp only [hr',pick,hr,if_true,hcast,Nat.cast_inj,List.map_cons,List.toFinset_cons]
      rw [← unchoke_set _ he]
      have hl' : ∀ x ∈ l, ({ m with nbrs := m.nbrs.set e.1 { e.2 with choked := false } } :
          NbrMap).nbrs[x.1]? = .some x.2 := by
        intro x hx
        have hne : e.1 ≠ x.1 := fun heq => hnotin (heq ▸ List.mem_map_of_mem hx)
        rw [List.getElem?_set_ne hne]
        exact hl x hx
      by_cases hj : j + 1 = n
      · simp only [hj,if_true]
        rw [List.map_nil,List.toFinset_nil,unchoke_empty]
      · simp only [hj,if_false]
        exact ih hnd hl' (j + 1)

theorem ranked_registered (he : e ∈ m.ranked) : m.nbrs[e.1]? = some e.2 :=
  getElem?_of_registered (mem_active.mp (mem_of_mem_collect he)).1

theorem ranked_nodup (m : NbrMap) : (m.ranked.map Prod.fst).Nodup := by
  refine (falling_collect m.active).nodup.map_on fun a ha b hb hab => ?_
  have hsnd : some a.2 = some b.2 := by
    rw [← ranked_registered ha,← ranked_registered hb,hab]
  exact Prod.ext hab (Option.some.inj hsnd)

theorem selectUnchoked_eq (h : m.Linked) (hz : m.npeers = 0) (n : ℕ) :
    m.selectUnchoked n = .ok (if m.active = [] then (false,m) else
      (true,m.unchoke ((pick Ready n m.ranked 0).map Prod.fst).toFinset)) := by
  have hnil : m.ranked.map (fun e => (e.2.requests,e.1)) = [] ↔ m.active = [] := by
    rw [List.map_eq_nil_iff,List.eq_nil_iff_forall_not_mem,List.eq_nil_iff_forall_not_mem]
    constructor
    · intro hno x hx
      obtain ⟨e,he,_⟩ := exists_mem_collect rate hx
      exact hno e he
    · exact fun hno x hx => hno x (mem_of_mem_collect hx)
  rw [selectUnchoked,if_neg (not_not.mpr hz),requestMap_eq h,Outcome.ok_bind]
  by_cases ha : m.active = []
  · rw [if_pos (hnil.mpr ha),if_pos ha]
    rfl
  · rw [if_neg (mt hnil.mp ha),if_neg ha]
    have hloop := unchokeLoop_eq (n := n) (ranked_nodup m) (fun e => ranked_registered) 0
    rw [Nat.cast_zero] at hloop
    rw [hloop]
    rfl

/-! ## When the choice is right -/

/-- What the selection picks is the top of the candidates. -/
theorem top_pick_iff (m : NbrMap) (n : ℕ) :
    Top rate n m.candidates (pick Ready n m.ranked 0).toFinset ↔ m.Separated n := by
  have hf : Falling rate m.ranked := falling_collect m.active
  have hsub : (m.ranked.filter Ready).toFinset ⊆ m.candidates := by
    rw [toFinset_filter_ranked]
    exact Finset.filter_subset _ _
  have htop := fun n => (hf.filter Ready).top_take_iff (n := n) hsub
  simp only [toFinset_filter_ranked] at htop
  rcases Nat.eq_zero_or_pos n with rfl | hn
  · have hnil : Top rate 0 m.candidates (pick Ready 0 m.ranked 0).toFinset ↔
        pick Ready 0 m.ranked 0 = [] := by
      constructor
      · intro h
        rw [← List.toFinset_eq_empty_iff,← Finset.card_eq_zero,h.card,Nat.zero_min]
      · intro h
        rw [h]
        exact ⟨Finset.empty_subset _,(Nat.zero_min _).symm,fun _ _ _ y hy => absurd hy (Finset.notMem_empty y)⟩
    rw [hnil,pick_zero_eq_nil hf]
    have hmem : ∀ e, e ∈ m.leaders ↔ e ∈ m.ranked ∧ Ready e = true := by
      intro e
      rw [← toFinset_filter_ranked,List.mem_toFinset,List.mem_filter]
    constructor
    · refine fun hall => ⟨fun _ e he => ?_,fun _ _ _ => Nat.zero_le _⟩
      obtain ⟨hr,hready⟩ := (hmem e).mp he
      obtain ⟨x,hx,hlt⟩ := hall e hr hready
      exact ⟨x,mem_of_mem_collect hx,hlt⟩
    · intro hsep e hr hready
      obtain ⟨x,hx,hlt⟩ := hsep.zero rfl e ((hmem e).mpr ⟨hr,hready⟩)
      obtain ⟨y,hy,heq⟩ := exists_mem_collect rate hx
      exact ⟨y,hy,hlt.trans_eq heq.symm⟩
  · rw [pick_of_lt hn,Nat.sub_zero,htop n]
    exact ⟨fun h => ⟨fun hz => absurd hz hn.ne',h⟩,fun h => h.ties⟩

theorem unchoke_inj {U V : Finset (ℕ × Nbr)} (hU : U ⊆ m.candidates) (hV : V ⊆ m.candidates)
    (h : m.unchoke (U.image Prod.fst) = m.unchoke (V.image Prod.fst)) : U ⊆ V := by
  intro e he
  have hc := hU he
  obtain ⟨hreg,hch,_,_⟩ := mem_candidates.mp hc
  have hget := getElem?_of_registered hreg
  have heq := congrArg (fun m => m.nbrs[e.1]?) h
  simp only [unchoke_getElem?,hget,Option.map_some,Option.some.injEq,
    if_pos (Finset.mem_image_of_mem Prod.fst he)] at heq
  by_cases hin : e.1 ∈ V.image Prod.fst
  · obtain ⟨x,hx,hfst⟩ := Finset.mem_image.mp hin
    have hsnd := getElem?_of_registered (mem_candidates.mp (hV hx)).1
    rw [hfst,hget] at hsnd
    have hxe : x = e := Prod.ext hfst (Option.some.inj hsnd).symm
    exact hxe ▸ hx
  · rw [if_neg hin] at heq
    have := congrArg Nbr.choked heq
    rw [hch] at this
    cases this

/-- What the call unchokes is right exactly when what the loop picks is. -/
theorem exists_prefers_iff (h : m.Linked) (hz : m.npeers = 0) (n : ℕ) :
    (∃ ret m', m.selectUnchoked n = .ok (ret,m') ∧ m.Prefers n ret m') ↔
      Top rate n m.candidates (pick Ready n m.ranked 0).toFinset := by
  have hpick : (pick Ready n m.ranked 0).toFinset ⊆ m.candidates := by
    intro e he
    have hmem := List.mem_filter.mp (pick_sublist.subset (List.mem_toFinset.mp he))
    exact mem_candidates_iff_active.mpr ⟨mem_of_mem_collect hmem.1,hmem.2⟩
  have himage : ((pick Ready n m.ranked 0).map Prod.fst).toFinset =
      (pick Ready n m.ranked 0).toFinset.image Prod.fst := by
    ext k
    simp
  rw [selectUnchoked_eq h hz,himage]
  by_cases ha : m.active = []
  · have hno : m.candidates = ∅ := by
      rw [Finset.eq_empty_iff_forall_notMem]
      intro e he
      have hin := (mem_candidates_iff_active.mp he).1
      rw [ha] at hin
      cases hin
    rw [if_pos ha]
    refine iff_of_true ⟨_,_,rfl,?_⟩ ?_
    · exact ⟨iff_of_true rfl (active_eq_nil.mp ha),fun _ => rfl,nofun⟩
    · rw [hno] at hpick ⊢
      rw [Finset.subset_empty.mp hpick]
      exact ⟨Finset.Subset.refl _,(Nat.min_zero n).symm,fun _ hx => absurd hx (Finset.notMem_empty _)⟩
  · rw [if_neg ha]
    constructor
    · rintro ⟨_,_,heq,hpref⟩
      cases heq
      obtain ⟨U,htop,hU⟩ := hpref.selects rfl
      have hsame := Finset.Subset.antisymm (unchoke_inj hpick htop.subset hU)
        (unchoke_inj htop.subset hpick hU.symm)
      exact hsame ▸ htop
    · intro htop
      refine ⟨_,_,rfl,?_,nofun,fun _ => ⟨_,htop,rfl⟩⟩
      exact iff_of_false Bool.false_ne_true.symm (mt active_eq_nil.mpr ha)

/-- The choice is right exactly when the counts separate the candidates. -/
theorem selectUnchoked_prefers_iff (h : m.Linked) (hz : m.npeers = 0) (n : ℕ) :
    (∃ ret m', m.selectUnchoked n = .ok (ret,m') ∧ m.Prefers n ret m') ↔ m.Separated n :=
  (exists_prefers_iff h hz n).trans (top_pick_iff m n)

/-- Three neighbours, of which the second is not interested. -/
theorem selectUnchoked_prefers_one : ∃ ret m', selectUnchoked { join 3 1 [1001,1002,1003] with
      nbrs := [⟨true,false,true,5⟩,⟨true,false,false,7⟩,⟨true,false,true,3⟩] } 1 = .ok (ret,m') ∧
    Prefers { join 3 1 [1001,1002,1003] with
      nbrs := [⟨true,false,true,5⟩,⟨true,false,false,7⟩,⟨true,false,true,3⟩] } 1 ret m' := by
  have hlink : Linked { join 3 1 [1001,1002,1003] with
      nbrs := [⟨true,false,true,5⟩,⟨true,false,false,7⟩,⟨true,false,true,3⟩] } :=
    (linked_join 3 1 [1001,1002,1003]).write rfl
  refine (selectUnchoked_prefers_iff hlink rfl 1).mpr ⟨nofun,?_⟩
  decide +kernel

/-- Two neighbours with equal counts, and only the first is unchoked. -/
theorem selectUnchoked_not_prefers : ∃ m : NbrMap, m.Linked ∧ m.npeers = 0 ∧
    ¬ ∃ ret m', m.selectUnchoked 2 = .ok (ret,m') ∧ m.Prefers 2 ret m' := by
  have hlink : Linked { join 2 1 [1001,1002] with
      nbrs := [⟨true,false,true,5⟩,⟨true,false,true,5⟩] } := (linked_join 2 1 [1001,1002]).write rfl
  refine ⟨_,hlink,rfl,fun h => ?_⟩
  have hsep := (top_pick_iff _ _).mp ((exists_prefers_iff hlink rfl 2).mp h)
  exact absurd hsep.ties (by decide +kernel)

end NbrMap

end BTRx
