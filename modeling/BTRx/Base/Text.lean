import Mathlib

/-! # Text functions of the C library

Lines as `getline` reads them, tokens as `strtok` cuts them, and numbers as `strtol` reads
them in base ten. A token ends at a delimiter and nowhere else; a number ends where its
digits end.
-/
namespace BTRx.Text
section
variable {α β : Type*} [DecidableEq α] {nl d : α} {l w rest : List α}

/-- The lines of a file, each with the newline that ends it. -/
def lines (nl : α) : List α → List (List α)
  | [] => []
  | c :: rest =>
    if c = nl then [c] :: lines nl rest
    else
      match lines nl rest with
      | [] => [[c]]
      | l :: ls => (c :: l) :: ls

theorem lines_append (h : nl ∉ l) : lines nl (l ++ nl :: rest) = (l ++ [nl]) :: lines nl rest := by
  induction l with
  | nil => simp [lines]
  | cons c l ih =>
    obtain ⟨hc,hl⟩ := not_or.mp (mt List.mem_cons.mpr h)
    rw [List.cons_append,lines,if_neg (Ne.symm hc),ih hl]
    rfl

/-- Text that is written line by line is read back line by line. -/
theorem lines_flatMap {text : β → List α} {xs : List β} (h : ∀ x ∈ xs, nl ∉ text x) :
    lines nl (xs.flatMap fun x => text x ++ [nl]) = xs.map fun x => text x ++ [nl] := by
  induction xs with
  | nil => rfl
  | cons x xs ih =>
    obtain ⟨hx,hxs⟩ := List.forall_mem_cons.mp h
    rw [List.flatMap_cons,List.append_assoc,List.singleton_append,lines_append hx,ih hxs]
    rfl

theorem lines_last (h : nl ∉ l) (hne : l ≠ []) : lines nl l = [l] := by
  induction l with
  | nil => exact absurd rfl hne
  | cons c l ih =>
    obtain ⟨hc,hl⟩ := not_or.mp (mt List.mem_cons.mpr h)
    rw [lines,if_neg (Ne.symm hc)]
    by_cases hnil : l = []
    · rw [hnil]
      rfl
    · rw [ih hl hnil]

/-- The last line may stand without a newline. -/
theorem lines_flatMap_append {text : β → List α} {xs : List β} (h : ∀ x ∈ xs, nl ∉ text x) (hl : nl ∉ l)
    (hne : l ≠ []) :
    lines nl ((xs.flatMap fun x => text x ++ [nl]) ++ l) = (xs.map fun x => text x ++ [nl]) ++ [l] := by
  induction xs with
  | nil => exact lines_last hl hne
  | cons x xs ih =>
    obtain ⟨hx,hxs⟩ := List.forall_mem_cons.mp h
    rw [List.flatMap_cons,List.append_assoc,List.append_assoc,List.singleton_append,lines_append hx,ih hxs]
    rfl

/-- `strtok(s, d)` with the rest that the next call goes on with. -/
def strtok (d : α) (s : List α) : Option (List α × List α) :=
  let s := s.dropWhile (· = d)
  if s = [] then none
  else some (s.takeWhile (· ≠ d),(s.dropWhile (· ≠ d)).tail)

/-- A word and what follows it up to a delimiter are one token. -/
theorem strtok_append (hw : w ≠ []) (hd : d ∉ w) :
    strtok d (w ++ rest) = some (w ++ rest.takeWhile (· ≠ d),(rest.dropWhile (· ≠ d)).tail) := by
  have hne : ∀ c ∈ w, (decide (c ≠ d)) = true := by
    intro c hc
    exact decide_eq_true fun heq => hd (heq ▸ hc)
  have hskip : (w ++ rest).dropWhile (· = d) = w ++ rest := by
    obtain ⟨c,w,rfl⟩ := List.exists_cons_of_ne_nil hw
    have hc : ¬ c = d := fun heq => hd (heq ▸ List.mem_cons_self)
    rw [List.cons_append,List.dropWhile_cons_of_neg (by simpa using hc)]
  rw [strtok,hskip,if_neg (List.append_ne_nil_of_left_ne_nil hw rest),
    List.takeWhile_append_of_pos hne,List.dropWhile_append_of_pos hne]

theorem strtok_word (hw : w ≠ []) (hd : d ∉ w) : strtok d (w ++ d :: rest) = some (w,rest) := by
  rw [strtok_append hw hd]
  simp

theorem strtok_last (hw : w ≠ []) (hd : d ∉ w) : strtok d w = some (w,[]) := by
  rw [← List.append_nil w,strtok_append hw hd]
  simp

/-- A token has no character that its text does not have. -/
theorem subset_of_strtok {s t : List α} (h : strtok d s = some (t,rest)) : t ⊆ s := by
  simp only [strtok] at h
  split_ifs at h
  cases h
  exact ((List.takeWhile_sublist _).trans (List.dropWhile_sublist _)).subset

end

/-! ## Numbers -/

def isSpace (c : UInt8) : Bool := c = 32 || (9 ≤ c && c ≤ 13)

def isDigit (c : UInt8) : Bool := 48 ≤ c && c ≤ 57

/-- The value of a row of digits. -/
def digitsVal (s : List UInt8) : ℕ := s.foldl (fun n c => 10 * n + (c.toNat - 48)) 0

/-- What `strtol` takes for a sign, with the characters after it. -/
def sign (s : List UInt8) : Bool × List UInt8 :=
  if s.head? = some 45 then (true,s.tail) else if s.head? = some 43 then (false,s.tail) else (false,s)

/-- `strtol(s, NULL, 10)` with a `long` of 64 bits. -/
def strtol (s : List UInt8) : ℤ :=
  let (neg,s) := sign (s.dropWhile isSpace)
  let n : ℤ := digitsVal (s.takeWhile isDigit)
  max (-2 ^ 63) (min (2 ^ 63 - 1) (if neg then -n else n))

/-- A decimal numeral, perhaps with a sign, and its value. -/
inductive Numeral : List UInt8 → ℤ → Prop
  | unsigned {s : List UInt8} (hs : s ≠ []) (hd : ∀ c ∈ s, isDigit c = true) : Numeral s (digitsVal s)
  | plus {s : List UInt8} (hs : s ≠ []) (hd : ∀ c ∈ s, isDigit c = true) :
    Numeral (43 :: s) (digitsVal s)
  | minus {s : List UInt8} (hs : s ≠ []) (hd : ∀ c ∈ s, isDigit c = true) :
    Numeral (45 :: s) (-digitsVal s)

variable {s rest : List UInt8} {z : ℤ}

theorem isDigit_iff {c : UInt8} : isDigit c = true ↔ 48 ≤ c.toNat ∧ c.toNat ≤ 57 := by
  rw [isDigit,Bool.and_eq_true,decide_eq_true_iff,decide_eq_true_iff,UInt8.le_iff_toNat_le,
    UInt8.le_iff_toNat_le]
  rfl

/-- The characters of a numeral are signs and digits. -/
theorem Numeral.mem_range (h : Numeral s z) : ∀ c ∈ s, 43 ≤ c.toNat ∧ c.toNat ≤ 57 := by
  have hrow : ∀ {s : List UInt8}, (∀ c ∈ s, isDigit c = true) →
      ∀ c ∈ s, 43 ≤ c.toNat ∧ c.toNat ≤ 57 := by
    intro s hd c hc
    have := isDigit_iff.mp (hd c hc)
    omega
  cases h with
  | unsigned hs hd => exact hrow hd
  | plus hs hd => exact List.forall_mem_cons.mpr ⟨by decide,hrow hd⟩
  | minus hs hd => exact List.forall_mem_cons.mpr ⟨by decide,hrow hd⟩

theorem Numeral.not_mem (h : Numeral s z) {c : UInt8} (hc : c.toNat < 43) : c ∉ s := by
  intro hin
  have := h.mem_range c hin
  omega

theorem Numeral.ne_nil (h : Numeral s z) : s ≠ [] := by
  cases h with
  | unsigned hs => exact hs
  | plus => exact List.cons_ne_nil _ _
  | minus => exact List.cons_ne_nil _ _

/-- A numeral in the range of `long` is read as its value, whatever follows its digits. -/
theorem strtol_numeral (h : Numeral s z) (hlo : -2 ^ 63 ≤ z) (hhi : z ≤ 2 ^ 63 - 1)
    (hrest : ∀ c ∈ rest.head?, isDigit c = false) : strtol (s ++ rest) = z := by
  have hspace : (s ++ rest).dropWhile isSpace = s ++ rest := by
    obtain ⟨c,t,rfl⟩ := List.exists_cons_of_ne_nil h.ne_nil
    obtain ⟨hc,_⟩ := h.mem_range c List.mem_cons_self
    have hno : isSpace c = false := by
      simp only [isSpace,Bool.or_eq_false_iff,decide_eq_false_iff_not,Bool.and_eq_false_iff,
        UInt8.le_iff_toNat_le,← UInt8.toNat_inj]
      exact ⟨by simp; omega,Or.inr (by simp; omega)⟩
    rw [List.cons_append,List.dropWhile_cons_of_neg (by simp [hno])]
  have hrow : ∀ {s : List UInt8}, (∀ c ∈ s, isDigit c = true) → (s ++ rest).takeWhile isDigit = s := by
    intro s hd
    rw [List.takeWhile_append_of_pos hd]
    cases rest with
    | nil => simp
    | cons c rest => rw [List.takeWhile_cons_of_neg (by simp [hrest c rfl]),List.append_nil]
  have hread : (let (neg,t) := sign (s ++ rest)
      (if neg then -(digitsVal (t.takeWhile isDigit) : ℤ) else digitsVal (t.takeWhile isDigit))) = z := by
    cases h with
    | unsigned hs hd =>
      obtain ⟨c,t,rfl⟩ := List.exists_cons_of_ne_nil hs
      have hc := isDigit_iff.mp (hd c List.mem_cons_self)
      have h45 : ¬ c = 45 := by rintro rfl; exact absurd hc.1 (by decide)
      have h43 : ¬ c = 43 := by rintro rfl; exact absurd hc.1 (by decide)
      have hsign : sign (c :: t ++ rest) = (false,c :: t ++ rest) := by simp [sign,h45,h43]
      rw [hsign]
      simp only [hrow hd,Bool.false_eq_true,if_false]
    | @plus t hs hd =>
      have hsign : sign (43 :: t ++ rest) = (false,t ++ rest) := rfl
      rw [hsign]
      simp only [hrow hd,Bool.false_eq_true,if_false]
    | @minus t hs hd =>
      have hsign : sign (45 :: t ++ rest) = (true,t ++ rest) := rfl
      rw [hsign]
      simp only [hrow hd,if_true]
  rw [strtol,hspace]
  simp only at hread ⊢
  rw [hread]
  omega

/-! ## Writing numbers -/

/-- The decimal digits of a number. -/
def decimalNat (n : ℕ) : List UInt8 :=
  if n = 0 then [48] else (Nat.digits 10 n).reverse.map fun i => UInt8.ofNat (48 + i)

def decimal (z : ℤ) : List UInt8 := if z < 0 then 45 :: decimalNat z.natAbs else decimalNat z.natAbs

theorem digitsVal_concat (s : List UInt8) (c : UInt8) :
    digitsVal (s ++ [c]) = 10 * digitsVal s + (c.toNat - 48) := by
  rw [digitsVal,List.foldl_append]
  rfl

theorem toNat_digit {i : ℕ} (h : i < 10) : (UInt8.ofNat (48 + i)).toNat = 48 + i := by
  rw [UInt8.toNat_ofNat']
  omega

theorem digitsVal_digits {is : List ℕ} (h : ∀ i ∈ is, i < 10) :
    digitsVal (is.reverse.map fun i => UInt8.ofNat (48 + i)) = Nat.ofDigits 10 is := by
  induction is with
  | nil => rfl
  | cons i is ih =>
    obtain ⟨hi,his⟩ := List.forall_mem_cons.mp h
    rw [List.reverse_cons,List.map_append,List.map_singleton,digitsVal_concat,ih his,toNat_digit hi,
      Nat.ofDigits_cons]
    omega

theorem digits_lt (n : ℕ) : ∀ i ∈ Nat.digits 10 n, i < 10 := fun _ => Nat.digits_lt_base (by decide)

theorem digitsVal_decimalNat (n : ℕ) : digitsVal (decimalNat n) = n := by
  unfold decimalNat
  split_ifs with h
  · rw [h]
    rfl
  · rw [digitsVal_digits (digits_lt n),Nat.ofDigits_digits]

theorem isDigit_decimalNat (n : ℕ) : ∀ c ∈ decimalNat n, isDigit c = true := by
  intro c hc
  unfold decimalNat at hc
  split_ifs at hc
  · rw [List.mem_singleton.mp hc]
    rfl
  · obtain ⟨i,hi,rfl⟩ := List.mem_map.mp hc
    have hlt := digits_lt n i (List.mem_reverse.mp hi)
    rw [isDigit_iff,toNat_digit hlt]
    omega

theorem decimalNat_ne_nil (n : ℕ) : decimalNat n ≠ [] := by
  unfold decimalNat
  split_ifs with h
  · exact List.cons_ne_nil _ _
  · simpa [Nat.digits_eq_nil_iff_eq_zero] using h

/-- What is written is a numeral of its value. -/
theorem numeral_decimal (z : ℤ) : Numeral (decimal z) z := by
  have hs := decimalNat_ne_nil z.natAbs
  have hd := isDigit_decimalNat z.natAbs
  have hval := digitsVal_decimalNat z.natAbs
  unfold decimal
  split_ifs with h
  · have hminus := Numeral.minus hs hd
    rw [hval] at hminus
    convert hminus using 1
    omega
  · have hunsigned := Numeral.unsigned hs hd
    rw [hval] at hunsigned
    convert hunsigned using 1
    omega

end BTRx.Text
