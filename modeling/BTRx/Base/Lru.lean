import Mathlib

/-! # A reference LRU

A list holds the cached keys from the least to the most recently used one. An access
moves its key to the end, and a miss on a full list drops the head. Replayed over all
accesses this is the tail of the keys in the order of their last accesses.
-/
namespace BTRx.Lru
variable {κ : Type*} [DecidableEq κ]

/-- What is left of the list before its key is put to the end. -/
def rest (cap : ℕ) (keys : List κ) (k : κ) : List κ :=
  if k ∈ keys then keys.erase k else if keys.length = cap then keys.tail else keys

def access (cap : ℕ) (keys : List κ) (k : κ) : List κ := rest cap keys k ++ [k]

/-- The key that an access drops. -/
def evicted (cap : ℕ) (keys : List κ) (k : κ) : Option κ :=
  if k ∈ keys then none else if keys.length = cap then keys.head? else none

/-- The list after all accesses, the oldest one first. -/
def replay (cap : ℕ) (accesses : List κ) : List κ := accesses.foldl (access cap) []

theorem replay_concat (cap : ℕ) (accesses : List κ) (k : κ) :
    replay cap (accesses ++ [k]) = access cap (replay cap accesses) k := by
  rw [replay,List.foldl_append]
  rfl

/-! ## The order of last accesses -/

theorem dedup_concat (accesses : List κ) (k : κ) :
    (accesses ++ [k]).dedup = accesses.dedup.erase k ++ [k] := by
  induction accesses with
  | nil => simp
  | cons a accesses ih =>
    rw [List.cons_append]
    by_cases ha : a ∈ accesses
    · rw [List.dedup_cons_of_mem (List.mem_append_left _ ha),List.dedup_cons_of_mem ha,ih]
    · rw [List.dedup_cons_of_notMem ha]
      by_cases hk : a = k
      · subst hk
        have hd : a ∉ accesses.dedup := fun h => ha (List.mem_dedup.mp h)
        rw [List.dedup_cons_of_mem (List.mem_append_right _ List.mem_cons_self),ih,
          List.erase_cons_head,List.erase_of_not_mem hd]
      · have hmem : a ∉ accesses ++ [k] := by
          simp [ha,hk]
        rw [List.dedup_cons_of_notMem hmem,ih,List.erase_cons_tail (by simpa using hk),List.cons_append]

theorem rtake_append {α : Type*} {A X : List α} {n : ℕ} (h : X.length = n ∨ A = [] ∧ X.length ≤ n) :
    (A ++ X).rtake n = X := by
  have hlen : (A ++ X).length - n = A.length := by
    rw [List.length_append]
    rcases h with h | ⟨rfl,h⟩
    · omega
    · simp only [List.length_nil]
      omega
  rw [List.rtake,hlen,List.drop_left]

/-- One access to the tail of a list without repetitions. -/
theorem rest_rtake {keys : List κ} (hnd : keys.Nodup) (n : ℕ) (k : κ) :
    rest (n + 1) (keys.rtake (n + 1)) k = (keys.erase k).rtake n := by
  obtain ⟨A,R,hkeys,hA,hR⟩ : ∃ A R, keys = A ++ R ∧ A.length = keys.length - (n + 1) ∧
      keys.rtake (n + 1) = R :=
    ⟨keys.take (keys.length - (n + 1)),_,(List.take_append_drop _ _).symm,
      List.length_take_of_le (Nat.sub_le _ _),rfl⟩
  have hlen : keys.length = A.length + R.length := by rw [hkeys,List.length_append]
  rw [hR,rest]
  by_cases hk : k ∈ R
  · have hkA : k ∉ A := fun h => (List.nodup_append.mp (hkeys ▸ hnd)).2.2 k h k hk rfl
    have hpos := List.length_pos_of_mem hk
    rw [if_pos hk,hkeys,List.erase_append_right _ hkA,rtake_append]
    rw [List.length_erase_of_mem hk,← List.length_eq_zero_iff]
    omega
  · rw [if_neg hk]
    by_cases hfull : R.length = n + 1
    · obtain ⟨r,R',rfl⟩ := List.exists_cons_of_length_eq_add_one hfull
      obtain ⟨A',herase⟩ : ∃ A', keys.erase k = A' ++ r :: R' := by
        by_cases hkA : k ∈ A
        · exact ⟨A.erase k,by rw [hkeys,List.erase_append_left _ hkA]⟩
        · exact ⟨A,by rw [hkeys,List.erase_of_not_mem (by simp_all)]⟩
      have hsplit : A' ++ r :: R' = (A' ++ [r]) ++ R' := by simp
      rw [if_pos hfull,herase,hsplit,rtake_append (Or.inl (Nat.succ.inj hfull)),List.tail_cons]
    · have hnil : A = [] := List.length_eq_zero_iff.mp (by omega)
      have hkeys : keys = R := by rw [hkeys,hnil,List.nil_append]
      rw [if_neg hfull,hkeys,List.erase_of_not_mem hk,← List.nil_append R,
        rtake_append (Or.inr ⟨rfl,by omega⟩)]
      rfl

/-- The replayed list is the tail of the keys in the order of their last accesses. -/
theorem replay_eq_rtake {cap : ℕ} (hcap : 1 ≤ cap) (accesses : List κ) :
    replay cap accesses = accesses.dedup.rtake cap := by
  obtain ⟨n,rfl⟩ := Nat.exists_eq_add_of_le' hcap
  induction accesses using List.reverseRecOn with
  | nil => simp [replay]
  | append_singleton accesses k ih =>
    rw [replay_concat,dedup_concat,ih,List.rtake_concat_succ,access,
      rest_rtake (List.nodup_dedup _)]

theorem replay_nodup {cap : ℕ} (hcap : 1 ≤ cap) (accesses : List κ) : (replay cap accesses).Nodup := by
  rw [replay_eq_rtake hcap]
  exact (List.nodup_dedup _).sublist (List.drop_sublist _ _)

end BTRx.Lru
