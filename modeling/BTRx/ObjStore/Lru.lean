import BTRx.Base.Lru
import BTRx.ObjStore.Transparency

/-! # The cache as an LRU

As long as the deque stays in place under every access, `update_cache` replays the
reference LRU. A hit on one of several entries leaves the front in the deque twice or
leaves the recorded indices of the others behind, and so does an eviction from a cache of
several entries.
-/
namespace BTRx
open Memory ByteSet Transition

namespace Cache
variable {c c' : Cache} {keys : List ℤ} {pos : ℤ} {buf : List Cell}

/-- The position of the object a pointer leads to. -/
def posAt (c : Cache) (a : ℕ) : Option ℤ := c.heap[a]?.join.map Access.pos

theorem posAt_eq_some {a : ℕ} {q : ℤ} :
    c.posAt a = some q ↔ ∃ acc, c.heap[a]? = some (some acc) ∧ acc.pos = q := by
  rw [posAt,Option.map_eq_some_iff]
  simp only [Option.join_eq_some_iff]

/-- The cache is what an LRU with these keys is. -/
structure IsLru (c : Cache) (keys : List ℤ) : Prop where
  nodup : c.cvec.Nodup
  size : c.cmap.keys.length = c.cvec.length
  bound : c.cvec.length ≤ c.maxsz
  index : ∀ pos idx, c.cmap.lookup pos = some idx → ∃ a, c.cvec[idx]? = some a ∧ c.posAt a = some pos
  cached : ∀ pos, pos ∈ c.cmap ↔ pos ∈ keys
  order : c.cvec.map c.posAt = keys.map some

/-- An object with position `q` is deleted between two states. -/
def Deletes (c c' : Cache) (q : ℤ) : Prop := ∃ a, c.posAt a = some q ∧ c'.heap[a]? = some none

/-! ## In an LRU state -/

theorem IsLru.length_eq (h : c.IsLru keys) : keys.length = c.cvec.length := by
  have hlen := congrArg List.length h.order
  rw [List.length_map,List.length_map] at hlen
  exact hlen.symm

theorem IsLru.posAt_getElem (h : c.IsLru keys) {i a : ℕ} (ha : c.cvec[i]? = some a) :
    keys[i]? = c.posAt a := by
  have hi := congrArg (fun l : List (Option ℤ) => l[i]?) h.order
  simp only [List.getElem?_map,ha,Option.map_some] at hi
  cases hk : keys[i]? with
  | none => simp [hk] at hi
  | some q => simpa [hk] using hi.symm

/-- The size follows from the rest. -/
theorem isLru_of (hkeys : keys.Nodup) (nodup : c.cvec.Nodup) (bound : c.cvec.length ≤ c.maxsz)
    (index : ∀ pos idx, c.cmap.lookup pos = some idx → ∃ a, c.cvec[idx]? = some a ∧ c.posAt a = some pos)
    (cached : ∀ pos, pos ∈ c.cmap ↔ pos ∈ keys) (order : c.cvec.map c.posAt = keys.map some) :
    c.IsLru keys := by
  have hperm : c.cmap.keys.Perm keys :=
    (List.perm_ext_iff_of_nodup (AList.keys_nodup _) hkeys).mpr fun q =>
      (AList.mem_keys).symm.trans (cached q)
  have hlen := congrArg List.length order
  rw [List.length_map,List.length_map] at hlen
  exact ⟨nodup,hperm.length_eq.trans hlen.symm,bound,index,cached,order⟩

/-- A key is recorded where it stands in the list. -/
theorem IsLru.lookup_getElem (h : c.IsLru keys) (hkeys : keys.Nodup) {i : ℕ} {q : ℤ}
    (hq : keys[i]? = some q) : c.cmap.lookup q = some i := by
  have hmem : q ∈ c.cmap := (h.cached q).mpr (List.mem_of_getElem? hq)
  obtain ⟨idx,hidx⟩ := Option.isSome_iff_exists.mp (AList.lookup_isSome.mpr hmem)
  obtain ⟨a,ha,hpos⟩ := h.index q idx hidx
  have hidx' : keys[idx]? = some q := (h.posAt_getElem ha).trans hpos
  have hi := (List.getElem?_eq_some_iff.mp hq).1
  rw [hidx,(List.getElem?_inj hi hkeys).mp (hq.trans hidx'.symm)]

theorem IsLru.front (h : c.IsLru keys) {front : ℕ} {rest : List ℕ} (hv : c.cvec = front :: rest) :
    ∃ acc, c.heap[front]? = some (some acc) ∧ keys[0]? = some acc.pos := by
  have h0 : c.cvec[0]? = some front := by rw [hv,List.getElem?_cons_zero]
  have hkey := h.posAt_getElem h0
  have hpos : (0 : ℕ) < keys.length := by
    rw [h.length_eq,hv]
    exact Nat.succ_pos _
  rw [List.getElem?_eq_getElem hpos] at hkey
  obtain ⟨acc,hacc,heq⟩ := posAt_eq_some.mp hkey.symm
  exact ⟨acc,hacc,by rw [List.getElem?_eq_getElem hpos,heq]⟩

theorem IsLru.addr (h : c.IsLru keys) {a : ℕ} (ha : a ∈ c.cvec) : a < c.heap.length := by
  obtain ⟨i,hi⟩ := List.getElem?_of_mem ha
  have hkey := h.posAt_getElem hi
  have hlt : i < keys.length := by
    rw [h.length_eq]
    exact (List.getElem?_eq_some_iff.mp hi).1
  rw [List.getElem?_eq_getElem hlt] at hkey
  obtain ⟨acc,hacc,_⟩ := posAt_eq_some.mp hkey.symm
  exact (List.getElem?_eq_some_iff.mp hacc).1

/-- Every access to an LRU state returns. -/
theorem IsLru.returns (h : c.IsLru keys) (hmax : 1 ≤ c.maxsz) (pos : ℤ) (buf : List Cell) :
    ∃ c', c.updateCache pos buf = .ok c' := by
  cases hl : c.cmap.lookup pos with
  | some idx =>
    obtain ⟨a,ha,_⟩ := h.index pos idx hl
    have hidx := (List.getElem?_eq_some_iff.mp ha).1
    obtain ⟨front,rest,hv⟩ := List.exists_cons_of_length_pos (Nat.zero_lt_of_lt hidx)
    exact ⟨_,updateCache_of_hit hl hv hidx⟩
  | none =>
    by_cases hfull : c.cvec.length = c.maxsz
    · obtain ⟨front,rest,hv⟩ := List.exists_cons_of_length_pos (Nat.lt_of_lt_of_eq hmax hfull.symm)
      obtain ⟨old,hold,_⟩ := h.front hv
      have hlive : (c.allocate pos buf)[front]? = some (some old) := by
        rw [allocate,List.getElem?_append_left (List.getElem?_eq_some_iff.mp hold).1,hold]
      exact ⟨_,updateCache_of_full hl hfull hv hlive⟩
    · exact ⟨_,updateCache_of_room hl hfull⟩

/-! ## A safe access -/

theorem IsLru.posAt_allocate (h : c.IsLru keys) {a : ℕ} (ha : a ∈ c.cvec) (pos : ℤ) (buf : List Cell) :
    (c.allocate pos buf)[a]? = c.heap[a]? := List.getElem?_append_left (h.addr ha)

theorem isLru_singleton {a : ℕ} {k : ℤ} (hv : c.cvec = [a]) (hmax : 1 ≤ c.maxsz)
    (hpos : c.posAt a = some k) (hl : ∀ q, c.cmap.lookup q = if q = k then some 0 else none) :
    c.IsLru [k] := by
  refine isLru_of (List.nodup_singleton k) ?_ ?_ ?_ ?_ ?_
  · rw [hv]
    exact List.nodup_singleton a
  · simpa [hv] using hmax
  · intro q idx hq
    rw [hl] at hq
    split_ifs at hq with hqk
    cases hq
    exact ⟨a,by rw [hv,List.getElem?_cons_zero],hqk ▸ hpos⟩
  · intro q
    rw [← AList.lookup_isSome,hl,List.mem_singleton]
    split_ifs with hqk <;> simp [hqk]
  · simp [hv,hpos]

theorem IsLru.eq_singleton (h : c.IsLru keys) {front : ℕ} (hv : c.cvec = [front]) :
    ∃ k, keys = [k] ∧ c.posAt front = some k := by
  have hlen : keys.length = 1 := by rw [h.length_eq,hv,List.length_singleton]
  obtain ⟨k,rfl⟩ := List.length_eq_one_iff.mp hlen
  have hkey := h.posAt_getElem (i := 0) (a := front) (by rw [hv,List.getElem?_cons_zero])
  exact ⟨k,rfl,hkey.symm⟩

theorem IsLru.lookup_none (h : c.IsLru keys) {q : ℤ} (hq : q ∉ keys) : c.cmap.lookup q = none :=
  AList.lookup_eq_none.mpr fun hc => hq ((h.cached q).mp hc)

/-- A hit on the only entry leaves the cache as it is. -/
theorem IsLru.hit (h : c.IsLru keys) {idx front : ℕ} (hl : c.cmap.lookup pos = some idx)
    (hv : c.cvec = [front]) : (c.onHit pos idx front).IsLru (Lru.access c.maxsz keys pos) := by
  obtain ⟨k,rfl,hpos⟩ := h.eq_singleton hv
  have hk : pos = k := by
    have hmem : pos ∈ c.cmap := AList.lookup_isSome.mp (by rw [hl]; rfl)
    exact List.mem_singleton.mp ((h.cached pos).mp hmem)
  subst hk
  obtain ⟨a,ha,_⟩ := h.index pos idx hl
  have hidx : idx = 0 := by
    have hlt := (List.getElem?_eq_some_iff.mp ha).1
    rw [hv,List.length_singleton] at hlt
    omega
  subst hidx
  have haccess : Lru.access c.maxsz [pos] pos = [pos] := by simp [Lru.access,Lru.rest]
  have hb := h.bound
  rw [hv,List.length_singleton] at hb
  rw [haccess]
  refine isLru_singleton (a := front) (by simp [onHit,hv]) hb hpos fun q => ?_
  simp only [onHit,hv,PosMap.lookup_insertNew (AList.lookup_erase pos c.cmap)]
  by_cases hq : q = pos
  · simp [hq]
  · rw [if_neg hq,if_neg hq,AList.lookup_erase_ne hq]
    exact h.lookup_none (by simpa using hq)

/-- A miss on a full cache of one entry replaces the entry. -/
theorem IsLru.full (h : c.IsLru keys) (hl : c.cmap.lookup pos = none) {front : ℕ}
    (hv : c.cvec = [front]) (hfull : c.cvec.length = c.maxsz) {old : ℤ} (hold : c.posAt front = some old) :
    (c.onFull pos buf front old).IsLru (Lru.access c.maxsz keys pos) := by
  obtain ⟨k,rfl,hpos⟩ := h.eq_singleton hv
  obtain rfl : old = k := Option.some.inj (hold.symm.trans hpos)
  have hne : pos ≠ old := by
    rintro rfl
    exact AList.lookup_eq_none.mp hl ((h.cached pos).mpr List.mem_cons_self)
  have haddr : front < c.heap.length := h.addr (by rw [hv]; exact List.mem_cons_self)
  rw [hv,List.length_singleton] at hfull
  have haccess : Lru.access c.maxsz [old] pos = [pos] := by
    simp [Lru.access,Lru.rest,hne,← hfull]
  rw [haccess]
  refine isLru_singleton (a := c.heap.length) (by simp [onFull,hv]) hfull.le ?_ fun q => ?_
  · simp only [posAt,onFull,allocate]
    rw [List.getElem?_set_ne haddr.ne,List.getElem?_concat_length]
    rfl
  · have hgone : (c.cmap.erase old).lookup pos = none := by rw [AList.lookup_erase_ne hne,hl]
    simp only [onFull,hv,PosMap.lookup_insertNew hgone]
    by_cases hq : q = pos
    · simp [hq]
    · rw [if_neg hq,if_neg hq]
      by_cases hqo : q = old
      · rw [hqo,AList.lookup_erase]
      · rw [AList.lookup_erase_ne hqo]
        exact h.lookup_none (by simpa using hqo)

/-- A miss with room left puts its key behind the others. -/
theorem IsLru.room (h : c.IsLru keys) (hkeys : keys.Nodup) (hl : c.cmap.lookup pos = none)
    (hne : c.cvec.length ≠ c.maxsz) :
    (c.onRoom pos buf).IsLru (Lru.access c.maxsz keys pos) := by
  have hmem : pos ∉ keys := fun hk => AList.lookup_eq_none.mp hl ((h.cached pos).mpr hk)
  have hlen : keys.length ≠ c.maxsz := by
    rw [h.length_eq]
    exact hne
  have haccess : Lru.access c.maxsz keys pos = keys ++ [pos] := by
    rw [Lru.access,Lru.rest,if_neg hmem,if_neg hlen]
  have hfresh : c.heap.length ∉ c.cvec := fun hc => absurd (h.addr hc) (lt_irrefl _)
  have hold : ∀ a ∈ c.cvec, (c.onRoom pos buf).posAt a = c.posAt a := by
    intro a ha
    simp only [posAt,onRoom,h.posAt_allocate ha]
  have hnew : (c.onRoom pos buf).posAt c.heap.length = some pos := by
    simp [posAt,onRoom,allocate]
  rw [haccess]
  refine isLru_of (List.nodup_append.mpr ⟨hkeys,List.nodup_singleton _,?_⟩) ?_ ?_ ?_ ?_ ?_
  · intro a ha b hb
    rw [List.mem_singleton.mp hb]
    exact fun hab => hmem (hab ▸ ha)
  · refine List.nodup_append.mpr ⟨h.nodup,List.nodup_singleton _,?_⟩
    intro a ha b hb
    rw [List.mem_singleton.mp hb]
    exact fun hab => hfresh (hab ▸ ha)
  · have hb := h.bound
    simp only [onRoom,List.length_append,List.length_singleton]
    omega
  · intro q idx hq
    simp only [onRoom,PosMap.lookup_insertNew hl] at hq
    by_cases hqp : q = pos
    · subst hqp
      rw [if_pos rfl] at hq
      cases hq
      exact ⟨c.heap.length,List.getElem?_concat_length,hnew⟩
    · rw [if_neg hqp] at hq
      obtain ⟨a,ha,hpos⟩ := h.index q idx hq
      refine ⟨a,?_,(hold a (List.mem_of_getElem? ha)).trans hpos⟩
      simp only [onRoom]
      rw [List.getElem?_append_left (List.getElem?_eq_some_iff.mp ha).1,ha]
  · intro q
    rw [← AList.lookup_isSome]
    simp only [onRoom,PosMap.lookup_insertNew hl]
    by_cases hqp : q = pos
    · simp [hqp]
    · simp [hqp,AList.lookup_isSome,h.cached]
  · have hmap : c.cvec.map (c.onRoom pos buf).posAt = keys.map some :=
      (List.map_congr_left hold).trans h.order
    simp only [onRoom,List.map_append,List.map_cons,List.map_nil] at hmap hnew ⊢
    rw [hmap,hnew]

theorem IsLru.head (h : c.IsLru keys) {front : ℕ} {rest : List ℕ} (hv : c.cvec = front :: rest) {old : Access}
    (hold : (c.allocate pos buf)[front]? = some (some old)) :
    c.posAt front = some old.pos ∧ keys.head? = some old.pos := by
  have hmem : front ∈ c.cvec := by
    rw [hv]
    exact List.mem_cons_self
  rw [h.posAt_allocate hmem] at hold
  obtain ⟨acc,hacc,hkey⟩ := h.front hv
  rw [hold] at hacc
  cases hacc
  exact ⟨posAt_eq_some.mpr ⟨old,hold,rfl⟩,by rw [List.head?_eq_getElem?,hkey]⟩

/-- A safe access is an access of the reference LRU. -/
theorem IsLru.step (h : c.IsLru keys) (hkeys : keys.Nodup) (hsafe : c.AccessSafe pos)
    (hx : c.Accessed pos buf c') : c'.IsLru (Lru.access c.maxsz keys pos) := by
  cases hx with
  | @hit idx front rest hl hv hidx =>
    have hone := hsafe.1 (AList.lookup_isSome.mp (by rw [hl]; rfl))
    obtain rfl : rest = [] := by simpa [hv] using hone
    exact h.hit hl hv
  | room hl hne => exact h.room hkeys hl hne
  | @full front rest old hl hfull hv hold =>
    have hmax := (hsafe.2 (AList.lookup_eq_none.mp hl)).resolve_left (not_not.mpr hfull)
    obtain rfl : rest = [] := by
      rw [hv,List.length_cons] at hfull
      exact List.length_eq_zero_iff.mp (by omega)
    exact h.full hl hv hfull (h.head hv hold).1

/-- From an LRU state an access deletes what the reference LRU drops, safe or not. -/
theorem IsLru.deletes_iff (h : c.IsLru keys) (hx : c.Accessed pos buf c') (q : ℤ) :
    c.Deletes c' q ↔ Lru.evicted c.maxsz keys pos = some q := by
  cases hx with
  | hit hl hv hidx =>
    have hmem : pos ∈ keys := (h.cached pos).mp (AList.lookup_isSome.mp (by rw [hl]; rfl))
    simp only [Lru.evicted,if_pos hmem,Deletes,onHit]
    constructor
    · rintro ⟨a,ha,hnone⟩
      obtain ⟨acc,hacc,_⟩ := posAt_eq_some.mp ha
      rw [hacc] at hnone
      cases hnone
    · intro hq
      cases hq
  | room hl hne =>
    have hmem : pos ∉ keys := fun hk => AList.lookup_eq_none.mp hl ((h.cached pos).mpr hk)
    have hlen : keys.length ≠ c.maxsz := h.length_eq ▸ hne
    simp only [Lru.evicted,if_neg hmem,if_neg hlen,Deletes,onRoom]
    constructor
    · rintro ⟨a,ha,hnone⟩
      obtain ⟨acc,hacc,_⟩ := posAt_eq_some.mp ha
      rw [allocate,List.getElem?_append_left (List.getElem?_eq_some_iff.mp hacc).1,hacc] at hnone
      cases hnone
    · intro hq
      cases hq
  | @full front rest old hl hfull hv hold =>
    have hmem : pos ∉ keys := fun hk => AList.lookup_eq_none.mp hl ((h.cached pos).mpr hk)
    have hlen : keys.length = c.maxsz := h.length_eq.trans hfull
    obtain ⟨hpos,hhead⟩ := h.head hv hold
    simp only [Lru.evicted,if_neg hmem,if_pos hlen,hhead,Deletes,onFull]
    constructor
    · rintro ⟨a,ha,hnone⟩
      obtain ⟨acc,hacc,_⟩ := posAt_eq_some.mp ha
      by_cases haf : a = front
      · subst haf
        exact hpos.symm.trans ha
      · rw [List.getElem?_set_ne (Ne.symm haf),allocate,
          List.getElem?_append_left (List.getElem?_eq_some_iff.mp hacc).1,hacc] at hnone
        cases hnone
    · intro hq
      refine ⟨front,hpos.trans hq,?_⟩
      exact List.getElem?_set_self (List.getElem?_eq_some_iff.mp hold).1

/-! ## An access that moves other entries -/

/-- Two keys with one recorded index are one too many. -/
theorem IsLru.index_inj (h : c.IsLru keys) {p q : ℤ} {idx : ℕ} (hp : c.cmap.lookup p = some idx)
    (hq : c.cmap.lookup q = some idx) : p = q := by
  obtain ⟨a,ha,hpa⟩ := h.index p idx hp
  obtain ⟨b,hb,hqb⟩ := h.index q idx hq
  obtain rfl : a = b := Option.some.inj (ha.symm.trans hb)
  exact Option.some.inj (hpa.symm.trans hqb)

/-- The last of several entries keeps its index when the first one goes, and the new
entry takes the same index. -/
theorem IsLru.last (h : c.IsLru keys) (hkeys : keys.Nodup) (hlen : 2 ≤ c.cvec.length) :
    ∃ q, c.cmap.lookup q = some (c.cvec.length - 1) ∧ keys.head? ≠ some q := by
  have hn : keys.length - 1 < keys.length := by
    have := h.length_eq
    omega
  refine ⟨keys[keys.length - 1],?_,?_⟩
  · rw [h.lookup_getElem hkeys (List.getElem?_eq_getElem hn),h.length_eq]
  · rw [List.head?_eq_getElem?,← List.getElem?_eq_getElem hn,Ne,List.getElem?_inj (by omega) hkeys]
    have := h.length_eq
    omega

theorem IsLru.not_of_moved (h : c.IsLru keys) (hkeys : keys.Nodup) (hbad : ¬ c.AccessSafe pos)
    (hx : c.Accessed pos buf c') (keys' : List ℤ) : ¬ c'.IsLru keys' := by
  intro h'
  cases hx with
  | @hit idx front rest hl hv hidx =>
    have hmem : pos ∈ c.cmap := AList.lookup_isSome.mp (by rw [hl]; rfl)
    have htwo : 2 ≤ c.cvec.length := by
      by_contra hlt
      refine hbad ⟨fun _ => ?_,fun hno => absurd hmem hno⟩
      omega
    cases idx with
    | succ j =>
      -- the front is still there and is pushed once more
      have hnd := h'.nodup
      simp only [onHit,hv,List.eraseIdx_cons_succ,List.cons_append,List.nodup_cons] at hnd
      exact hnd.1 (List.mem_append_right _ List.mem_cons_self)
    | zero =>
      obtain ⟨q,hq,hne⟩ := h.last hkeys htwo
      obtain ⟨acc,hacc,hkey⟩ := h.front hv
      have hpos : acc.pos = pos := by
        obtain ⟨a,ha,hpa⟩ := h.index pos 0 hl
        rw [← h.posAt_getElem ha,hkey] at hpa
        exact Option.some.inj hpa
      have hqp : q ≠ pos := by
        rintro rfl
        rw [List.head?_eq_getElem?,hkey,hpos] at hne
        exact hne rfl
      have hlook := fun r => PosMap.lookup_insertNew (q := r) (v := c.cvec.length - 1)
        (AList.lookup_erase pos c.cmap)
      have hlast : (c.onHit pos 0 front).cmap.lookup q = some (c.cvec.length - 1) := by
        simp only [onHit]
        rw [hlook,if_neg hqp,AList.lookup_erase_ne hqp,hq]
      have hnew : (c.onHit pos 0 front).cmap.lookup pos = some (c.cvec.length - 1) := by
        simp only [onHit]
        rw [hlook,if_pos rfl]
      exact hqp (h'.index_inj hlast hnew)
  | room hl hne =>
    exact hbad ⟨fun hmem => absurd hmem (AList.lookup_eq_none.mp hl),fun _ => Or.inl hne⟩
  | @full front rest old hl hfull hv hold =>
    have hno := AList.lookup_eq_none.mp hl
    have htwo : 2 ≤ c.cvec.length := by
      by_contra hlt
      refine hbad ⟨fun hmem => absurd hmem hno,fun _ => Or.inr ?_⟩
      omega
    obtain ⟨q,hq,hne⟩ := h.last hkeys htwo
    obtain ⟨hpos,hhead⟩ := h.head hv hold
    have hqo : q ≠ old.pos := fun heq => hne (heq ▸ hhead)
    have hqp : q ≠ pos := by
      rintro rfl
      rw [hl] at hq
      cases hq
    have hgone : (c.cmap.erase old.pos).lookup pos = none := by
      by_cases hp : pos = old.pos
      · rw [hp,AList.lookup_erase]
      · rw [AList.lookup_erase_ne hp,hl]
    have hlook := fun r => PosMap.lookup_insertNew (q := r) (v := c.cvec.tail.length) hgone
    have hlen : c.cvec.tail.length = c.cvec.length - 1 := List.length_tail
    have hlast : (c.onFull pos buf front old.pos).cmap.lookup q = some (c.cvec.length - 1) := by
      simp only [onFull]
      rw [hlook,if_neg hqp,AList.lookup_erase_ne hqo,hq]
    have hnew : (c.onFull pos buf front old.pos).cmap.lookup pos = some (c.cvec.length - 1) := by
      simp only [onFull]
      rw [hlook,if_pos rfl,hlen]
    exact hqp (h'.index_inj hlast hnew)

/-! ## Runs -/

/-- One returning call of `update_cache`. -/
def Step (c : Cache) (x : ℤ × List Cell) (c' : Cache) : Prop := c.updateCache x.1 x.2 = .ok c'

/-- The positions of the calls of a history, the oldest one first. -/
def accesses (hist : List (Cache × ℤ × List Cell)) : List ℤ := (hist.map fun e => e.2.1).reverse

/-- Every state of a run is the LRU state of the calls so far, and every call has deleted
what the reference LRU drops. -/
def LruSoFar : List (Cache × ℤ × List Cell) → Cache → Prop
  | [],t => t.IsLru []
  | (s,x) :: hist,t => LruSoFar hist s ∧
    t.IsLru ((accesses ((s,x) :: hist)).dedup.rtake t.maxsz) ∧
    ∀ q, s.Deletes t q ↔ Lru.evicted s.maxsz (Lru.replay s.maxsz (accesses hist)) x.1 = some q

/-- The run so far is one of an LRU, and the next call returns too. -/
def BehavesLru (hist : List (Cache × ℤ × List Cell)) (t : Cache) : Prop :=
  LruSoFar hist t ∧ ∀ pos buf, ∃ t', t.updateCache pos buf = .ok t'

structure Empty (c : Cache) : Prop where
  cmap : c.cmap = ∅
  cvec : c.cvec = []
  heap : c.heap = []

theorem Empty.isLru (h : c.Empty) : c.IsLru [] := by
  obtain ⟨hm,hv,_⟩ := h
  refine isLru_of List.nodup_nil (by simp [hv]) (by simp [hv]) ?_ ?_ (by simp [hv])
  · intro pos idx hl
    rw [hm,AList.lookup_empty] at hl
    cases hl
  · intro pos
    simp [hm,AList.notMem_empty]

theorem accesses_cons (e : Cache × ℤ × List Cell) (hist : List (Cache × ℤ × List Cell)) :
    accesses (e :: hist) = accesses hist ++ [e.2.1] := by
  simp [accesses]

/-- The last state of an LRU run is the replayed one. -/
theorem LruSoFar.isLru {hist : List (Cache × ℤ × List Cell)} {t : Cache} (h : LruSoFar hist t)
    (hmax : 1 ≤ t.maxsz) : t.IsLru (Lru.replay t.maxsz (accesses hist)) := by
  cases hist with
  | nil => exact h
  | cons e hist =>
    rw [Lru.replay_eq_rtake hmax]
    exact h.2.1

theorem Step.maxsz {x : ℤ × List Cell} (h : c.Step x c') : c'.maxsz = c.maxsz :=
  (updateCache_eq_ok.mp h).frame.1.2.2

/-- In every run of calls from an empty cache: it is an LRU exactly when each access
leaves the deque in place. -/
theorem behavesLru_iff {c₀ t : Cache} (h0 : c₀.Empty) (hmax : 1 ≤ c₀.maxsz)
    {hist : List (Cache × ℤ × List Cell)} (run : Run Step c₀ hist t) :
    BehavesLru hist t ↔ ∀ e ∈ hist, e.1.AccessSafe e.2.1 := by
  have hmaxsz : t.maxsz = c₀.maxsz := run.preserves (P := fun c => c.maxsz = c₀.maxsz) rfl
    fun _ _ _ hc hstep => hstep.maxsz.trans hc
  have hall : LruSoFar hist t ↔ ∀ e ∈ hist, e.1.AccessSafe e.2.1 := by
    clear hmaxsz
    induction run with
    | refl => exact iff_of_true h0.isLru (fun e he => absurd he List.not_mem_nil)
    | @tail hist s t x run last ih =>
      have hs : s.maxsz = c₀.maxsz := run.preserves (P := fun c => c.maxsz = c₀.maxsz) rfl
        fun _ _ _ hc hstep => hstep.maxsz.trans hc
      have hmax' : 1 ≤ s.maxsz := hs ▸ hmax
      have hx := updateCache_eq_ok.mp last
      have hnd := Lru.replay_nodup hmax' (accesses hist)
      rw [LruSoFar,List.forall_mem_cons,ih,accesses_cons]
      constructor
      · rintro ⟨hsafe,hlru,_⟩
        refine ⟨?_,hsafe⟩
        by_contra hbad
        exact ((ih.mpr hsafe).isLru hmax').not_of_moved hnd hbad hx _ hlru
      · rintro ⟨hsafe,hbefore⟩
        have hlru := (ih.mpr hbefore).isLru hmax'
        refine ⟨hbefore,?_,hlru.deletes_iff hx⟩
        have hnext := hlru.step hnd hsafe hx
        rwa [← Lru.replay_concat,Lru.replay_eq_rtake hmax',← last.maxsz] at hnext
  rw [← hall]
  exact ⟨fun h => h.1,fun h => ⟨h,(h.isLru (hmaxsz ▸ hmax)).returns (hmaxsz ▸ hmax)⟩⟩

/-- An empty cache with room for two buffers. -/
def pair : Cache := { cmap := ∅, cvec := [], heap := [], file := ⟨[],0⟩, pcsz := 4, npcs := 2, maxsz := 2 }

/-- Two misses with room. -/
theorem behavesLru_two : ∃ hist t, Run Step pair hist t ∧ accesses hist = [0,4] ∧ BehavesLru hist t := by
  have run := Run.refl.tail (show Step pair (0,[]) _ from rfl)
  have run := run.tail (show Step _ (4,[]) _ from rfl)
  refine ⟨_,_,run,rfl,(behavesLru_iff ⟨rfl,rfl,rfl⟩ (by decide) run).mpr ?_⟩
  intro e he
  simp only [List.mem_cons,List.not_mem_nil,or_false] at he
  rcases he with rfl | rfl
  · exact ⟨fun h => absurd h (by decide),fun _ => Or.inl (by decide)⟩
  · exact ⟨fun h => absurd h (by decide),fun _ => Or.inl (by decide)⟩

/-- The older of two entries is used again: index 1 is recorded for both afterwards. -/
theorem not_behavesLru : ∃ c₀ hist t, c₀.Empty ∧ 1 ≤ c₀.maxsz ∧ Run Step c₀ hist t ∧
    accesses hist = [0,4,0] ∧ ¬ BehavesLru hist t := by
  have run := Run.refl.tail (show Step pair (0,[]) _ from rfl)
  have run := run.tail (show Step _ (4,[]) _ from rfl)
  have run := run.tail (show Step _ (0,[]) _ from rfl)
  refine ⟨_,_,_,⟨rfl,rfl,rfl⟩,by decide,run,rfl,fun h => ?_⟩
  obtain ⟨a,ha,hpos⟩ := h.1.2.1.index 4 1 (by decide)
  cases ha
  exact absurd hpos (by decide)

end Cache

end BTRx
