import Mathlib

/-! # Ranked lists

A list of falling ranks holds one element of each rank, the one that was inserted first.
A selection walks down such a list with a counter. It finds the elements of highest rank
among all candidates exactly when each candidate that the list lacks is outranked, or
matched, by enough of those that it holds.
-/
namespace BTRx.Ranking
variable {α β κ : Type*} [LinearOrder κ] (rank : α → κ)

/-- Inserts an element, unless there is one of its rank. -/
def insertFirst (x : α) : List α → List α
  | [] => [x]
  | e :: rest =>
    if rank e < rank x then x :: e :: rest
    else if rank e = rank x then e :: rest
    else e :: insertFirst x rest

def Falling (l : List α) : Prop := l.Pairwise fun a b => rank b < rank a

/-- The first element of each rank, the highest rank first. -/
def collect (xs : List α) : List α := xs.foldl (fun l x => insertFirst rank x l) []

variable {rank} {l xs : List α} {x e : α}

theorem mem_insertFirst (h : Falling rank l) :
    e ∈ insertFirst rank x l ↔ e ∈ l ∨ e = x ∧ ∀ a ∈ l, rank a ≠ rank x := by
  induction l with
  | nil => simp [insertFirst]
  | cons a l ih =>
    obtain ⟨ha,hl⟩ := List.pairwise_cons.mp h
    rw [insertFirst]
    split_ifs with hlt heq
    · have hne : ∀ b ∈ a :: l, rank b ≠ rank x := by
        intro b hb
        rcases List.mem_cons.mp hb with rfl | hb
        · exact hlt.ne
        · exact ((ha b hb).trans hlt).ne
      rw [List.mem_cons,or_comm]
      exact or_congr_right (and_iff_left hne).symm
    · have hno : ¬ ∀ b ∈ a :: l, rank b ≠ rank x := fun hall => hall a List.mem_cons_self heq
      rw [or_iff_left fun hx => hno hx.2]
    · rw [List.mem_cons,ih hl,List.mem_cons,List.forall_mem_cons,or_assoc]
      exact or_congr_right (or_congr_right (and_congr_right fun _ => (and_iff_right heq).symm))

theorem Falling.insertFirst (h : Falling rank l) (x : α) : Falling rank (insertFirst rank x l) := by
  induction l with
  | nil => exact List.pairwise_singleton _ _
  | cons a l ih =>
    obtain ⟨ha,hl⟩ := List.pairwise_cons.mp h
    rw [Ranking.insertFirst]
    split_ifs with hlt heq
    · refine List.pairwise_cons.mpr ⟨fun b hb => ?_,h⟩
      rcases List.mem_cons.mp hb with rfl | hb
      · exact hlt
      · exact (ha b hb).trans hlt
    · exact h
    · refine List.pairwise_cons.mpr ⟨fun b hb => ?_,ih hl⟩
      rcases (mem_insertFirst hl).mp hb with hb | ⟨rfl,_⟩
      · exact ha b hb
      · exact lt_of_le_of_ne (not_lt.mp hlt) (Ne.symm heq)

theorem collect_concat (xs : List α) (x : α) :
    collect rank (xs ++ [x]) = Ranking.insertFirst rank x (collect rank xs) := by
  rw [collect,List.foldl_append]
  rfl

theorem falling_collect (xs : List α) : Falling rank (collect rank xs) := by
  induction xs using List.reverseRecOn with
  | nil => exact List.Pairwise.nil
  | append_singleton xs x ih =>
    rw [collect_concat]
    exact ih.insertFirst x

/-- An element is kept exactly when none of its rank comes before it. -/
theorem mem_collect : e ∈ collect rank xs ↔ xs.find? (fun a => rank a = rank e) = some e := by
  induction xs using List.reverseRecOn generalizing e with
  | nil => simp [collect]
  | append_singleton xs x ih =>
    rw [collect_concat,mem_insertFirst (falling_collect xs),List.find?_append,Option.or_eq_some_iff,ih]
    apply or_congr_right
    have hnone : (∀ a ∈ collect rank xs, rank a ≠ rank x) ↔
        xs.find? (fun a => rank a = rank x) = none := by
      constructor
      · intro hall
        by_contra hsome
        obtain ⟨a,ha⟩ := Option.ne_none_iff_exists'.mp hsome
        have heq : rank a = rank x := by simpa using List.find?_some ha
        exact hall a (ih.mpr (heq ▸ ha)) heq
      · intro hn a ha heq
        rw [ih,heq,hn] at ha
        cases ha
    rw [hnone]
    constructor
    · rintro ⟨rfl,hn⟩
      exact ⟨hn,by simp⟩
    · rintro ⟨hn,hx⟩
      have hx : x = e := by
        have := List.mem_of_find?_eq_some hx
        exact (List.mem_singleton.mp this).symm
      subst hx
      exact ⟨rfl,hn⟩

theorem mem_of_mem_collect (h : e ∈ collect rank xs) : e ∈ xs :=
  List.mem_of_find?_eq_some (mem_collect.mp h)

/-- Each rank of the list is the rank of an element that is kept. -/
theorem exists_mem_collect (rank : α → κ) (h : x ∈ xs) : ∃ e ∈ collect rank xs, rank e = rank x := by
  have hsome : (xs.find? fun a => rank a = rank x).isSome := by
    rw [List.find?_isSome]
    exact ⟨x,h,decide_eq_true rfl⟩
  obtain ⟨e,he⟩ := Option.isSome_iff_exists.mp hsome
  have heq : rank e = rank x := by simpa using List.find?_some he
  exact ⟨e,mem_collect.mpr (heq ▸ he),heq⟩

theorem insertFirst_map (f : β → α) (y : β) (l : List β) :
    insertFirst rank (f y) (l.map f) = (insertFirst (rank ∘ f) y l).map f := by
  induction l with
  | nil => rfl
  | cons a l ih =>
    simp only [List.map_cons,insertFirst,Function.comp_apply,ih,apply_ite (List.map f)]

theorem collect_map (rank : α → κ) (f : β → α) (ys : List β) :
    collect rank (ys.map f) = (collect (rank ∘ f) ys).map f := by
  induction ys using List.reverseRecOn with
  | nil => rfl
  | append_singleton ys y ih =>
    rw [List.map_append,List.map_cons,List.map_nil,collect_concat,collect_concat,ih,insertFirst_map]

/-! ## A selection with a counter -/

/-- Takes the elements that satisfy `p`, and ends when the counter is `n` after an element. -/
def pick (p : α → Bool) (n : ℕ) : List α → ℕ → List α
  | [], _ => []
  | x :: l, j =>
    let j := if p x then j + 1 else j
    let rest := if j = n then [] else pick p n l j
    if p x then x :: rest else rest

variable {p : α → Bool} {n j : ℕ}

theorem pick_sublist : (pick p n l j).Sublist (l.filter p) := by
  induction l generalizing j with
  | nil => exact List.Sublist.refl []
  | cons x l ih =>
    cases hx : p x with
    | true =>
      rw [List.filter_cons_of_pos hx]
      simp only [pick,hx,if_true]
      apply List.Sublist.cons_cons
      split_ifs
      · exact List.nil_sublist _
      · exact ih
    | false =>
      rw [List.filter_cons_of_neg (Bool.not_eq_true _ ▸ hx)]
      simp only [pick,hx,Bool.false_eq_true,if_false]
      split_ifs
      · exact List.nil_sublist _
      · exact ih

theorem pick_of_lt (h : j < n) : pick p n l j = (l.filter p).take (n - j) := by
  induction l generalizing j with
  | nil => rw [pick,List.filter_nil,List.take_nil]
  | cons x l ih =>
    cases hx : p x with
    | false => simp [pick,hx,h.ne,ih h]
    | true =>
      have hsub : n - j = n - (j + 1) + 1 := by omega
      rw [List.filter_cons_of_pos hx,hsub,List.take_succ_cons]
      by_cases heq : j + 1 = n
      · simp [pick,hx,heq]
      · simp [pick,hx,heq,ih (show j + 1 < n by omega)]

/-- With nothing to select, the first element decides between nothing and everything. -/
theorem pick_zero_eq_nil (h : Falling rank l) :
    pick p 0 l 0 = [] ↔ ∀ x ∈ l, p x → ∃ y ∈ l, rank x < rank y := by
  cases l with
  | nil => simp [pick]
  | cons a l =>
    obtain ⟨ha,_⟩ := List.pairwise_cons.mp h
    cases hp : p a with
    | true =>
      have hmax : ¬ ∃ y ∈ a :: l, rank a < rank y := by
        rintro ⟨y,hy,hlt⟩
        rcases List.mem_cons.mp hy with rfl | hy
        · exact lt_irrefl _ hlt
        · exact lt_asymm hlt (ha y hy)
      constructor
      · intro hnil
        simp [pick,hp] at hnil
      · exact fun hall => absurd (hall a List.mem_cons_self hp) hmax
    | false =>
      refine iff_of_true (by simp [pick,hp]) fun x hx hpx => ?_
      rcases List.mem_cons.mp hx with rfl | hx
      · rw [hp] at hpx
        cases hpx
      · exact ⟨a,List.mem_cons_self,ha x hx⟩

/-! ## The highest ranks -/

/-- As many elements of `E` as there are, up to `n`, and none left that is ranked higher. -/
structure Top (rank : α → κ) (n : ℕ) (E U : Finset α) : Prop where
  subset : U ⊆ E
  card : U.card = min n E.card
  best : ∀ x ∈ E, x ∉ U → ∀ y ∈ U, rank x ≤ rank y

theorem Falling.nodup (h : Falling rank l) : l.Nodup :=
  List.Pairwise.imp (fun hlt heq => hlt.ne (congrArg rank heq).symm) h

theorem Falling.filter (h : Falling rank l) (p : α → Bool) : Falling rank (l.filter p) :=
  List.Pairwise.filter p h

theorem Falling.lt_of_take (h : Falling rank l) {y : α} (hx : x ∈ l) (hn : x ∉ l.take n)
    (hy : y ∈ l.take n) : rank x < rank y := by
  rw [← List.take_append_drop n l] at h hx
  have hdrop : x ∈ l.drop n := (List.mem_append.mp hx).resolve_left hn
  exact (List.pairwise_append.mp h).2.2 y hy x hdrop

/-- `n` elements reach a rank exactly when the first `n` do. -/
theorem Falling.le_length_filter (h : Falling rank l) (c : κ) :
    n ≤ (l.filter (c ≤ rank ·)).length ↔ n ≤ l.length ∧ ∀ y ∈ l.take n, c ≤ rank y := by
  induction l generalizing n with
  | nil => simp
  | cons a l ih =>
    obtain ⟨ha,hl⟩ := List.pairwise_cons.mp h
    cases n with
    | zero => simp
    | succ n =>
      by_cases hc : c ≤ rank a
      · rw [List.filter_cons_of_pos (by simpa using hc),List.length_cons,List.length_cons,
          List.take_succ_cons,List.forall_mem_cons,Nat.succ_le_succ_iff,Nat.succ_le_succ_iff,ih hl]
        exact and_congr_right fun _ => (and_iff_right hc).symm
      · have hnil : (a :: l).filter (c ≤ rank ·) = [] := by
          rw [List.filter_eq_nil_iff]
          intro b hb
          have hle : rank b ≤ rank a := by
            rcases List.mem_cons.mp hb with rfl | hb
            · exact le_rfl
            · exact (ha b hb).le
          simpa using hle.trans_lt (not_le.mp hc)
        rw [hnil]
        refine iff_of_false (Nat.not_succ_le_zero n) fun hall => hc (hall.2 a ?_)
        exact List.mem_cons_self

/-- The first `n` elements of a falling list are the top of a larger set exactly when `n`
of them reach the rank of each element that the list lacks. -/
theorem Falling.top_take_iff [DecidableEq α] (h : Falling rank l) {E : Finset α} (hl : l.toFinset ⊆ E) :
    Top rank n E (l.take n).toFinset ↔
      ∀ x ∈ E, x ∉ l.toFinset → n ≤ (l.toFinset.filter (rank x ≤ rank ·)).card := by
  have hnd := h.nodup
  have hcard : l.toFinset.card = l.length := List.toFinset_card_of_nodup hnd
  have htake : (l.take n).toFinset.card = min n l.length := by
    rw [List.toFinset_card_of_nodup (hnd.sublist (List.take_sublist n l)),List.length_take]
  have hreach : ∀ c, (l.toFinset.filter (c ≤ rank ·)).card = (l.filter (c ≤ rank ·)).length := by
    intro c
    rw [← List.toFinset_card_of_nodup (hnd.filter _),List.toFinset_filter]
    simp only [decide_eq_true_eq]
  have hle : l.length ≤ E.card := hcard ▸ Finset.card_le_card hl
  simp only [hreach,h.le_length_filter]
  constructor
  · intro htop x hx hxl
    have hlt : l.length < E.card := by
      rw [← hcard]
      exact Finset.card_lt_card (Finset.ssubset_iff_of_subset hl |>.mpr ⟨x,hx,hxl⟩)
    have hmin := htake ▸ htop.card
    have hxt : x ∉ (l.take n).toFinset := fun ht =>
      hxl (List.mem_toFinset.mpr (List.mem_of_mem_take (List.mem_toFinset.mp ht)))
    exact ⟨by omega,fun y hy => htop.best x hx hxt y (List.mem_toFinset.mpr hy)⟩
  · intro hall
    refine ⟨fun x hx => hl ?_,?_,?_⟩
    · exact List.mem_toFinset.mpr (List.mem_of_mem_take (List.mem_toFinset.mp hx))
    · by_cases hsub : E ⊆ l.toFinset
      · rw [htake,← hcard,Finset.Subset.antisymm hl hsub]
      · obtain ⟨x,hx,hxl⟩ := Finset.not_subset.mp hsub
        have hn := (hall x hx hxl).1
        rw [htake]
        omega
    · intro x hx hxt y hy
      rw [List.mem_toFinset] at hxt hy
      by_cases hxl : x ∈ l
      · exact (h.lt_of_take hxl hxt hy).le
      · exact (hall x hx (mt List.mem_toFinset.mp hxl)).2 y hy

end BTRx.Ranking
