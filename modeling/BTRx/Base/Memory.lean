import BTRx.Base.Outcome

/-! # Buffers, C strings and files

A buffer is a list of cells, and a cell that has not been written holds `none`. The
string functions stop at the first zero byte; what they make of an unwritten cell is
unknown, and so is everything they produce from there on. A file is its contents with
the offset of the one descriptor the program opens on it.
-/
namespace BTRx

/-- One byte of memory or of a file, `none` while its value is indeterminate. -/
abbrev Cell := Option UInt8

namespace Memory

/-- A freshly allocated buffer. -/
def uninit (n : ℕ) : List Cell := List.replicate n none

/-- The `n` cells a pointer gives access to; past the given buffer they are unknown. -/
def window (n : ℕ) (buf : List Cell) : List Cell := buf.take n ++ uninit (n - buf.length)

/-- `strncpy(dst, src, n)`: the string in `src` and then zeros up to `n`. -/
def strncpy : ℕ → List Cell → List Cell
  | 0, _ => []
  | n + 1, some b :: src =>
    if b = 0 then List.replicate (n + 1) (some 0) else some b :: strncpy n src
  | n + 1, _ => uninit (n + 1)

/-- A new buffer of `n` cells after `snprintf(buf, n, "%s", src)`: at most `n - 1`
characters of the string, a zero, and cells that stay unwritten. -/
def snprintf : ℕ → List Cell → List Cell
  | 0, _ => []
  | 1, _ => [some 0]
  | n + 2, some b :: src =>
    if b = 0 then some 0 :: uninit (n + 1) else some b :: snprintf (n + 1) src
  | n + 2, _ => uninit (n + 2)

/-- The bytes `std::string(buf)` takes. The bytes of `junk` stand, in order, for the
unwritten cells that are met and then for the memory that follows the buffer. -/
def cString : List Cell → List UInt8 → List UInt8
  | [], junk => junk.takeWhile (· ≠ 0)
  | some b :: buf, junk => if b = 0 then [] else b :: cString buf junk
  | none :: _, [] => []
  | none :: buf, j :: junk => if j = 0 then [] else j :: cString buf junk

theorem cString_length_le (buf : List Cell) (junk : List UInt8) :
    (cString buf junk).length ≤ buf.length + junk.length := by
  fun_induction cString buf junk with
  | case1 junk => simpa using (List.takeWhile_prefix _).length_le
  | case2 => simp
  | case3 b buf junk hb ih =>
    simp only [List.length_cons]
    omega
  | case4 => simp
  | case5 => simp
  | case6 buf j junk hj ih =>
    simp only [List.length_cons]
    omega

/-- A C string has no zero byte. -/
theorem zero_not_mem_cString (buf : List Cell) (junk : List UInt8) : 0 ∉ cString buf junk := by
  fun_induction cString buf junk with
  | case1 junk => exact fun h => by simpa using List.mem_takeWhile_imp h
  | case2 => exact List.not_mem_nil
  | case3 b buf junk hb ih => exact List.not_mem_cons_of_ne_of_not_mem (Ne.symm hb) ih
  | case4 => exact List.not_mem_nil
  | case5 => exact List.not_mem_nil
  | case6 buf j junk hj ih => exact List.not_mem_cons_of_ne_of_not_mem (Ne.symm hj) ih

/-- A copied string starts with the bytes before the first zero. -/
theorem cString_strncpy_append {n : ℕ} {s : List UInt8} (hs : 0 ∉ s) (hn : s.length ≤ n)
    (src : List Cell) (junk : List UInt8) : cString (strncpy n (s.map some ++ src)) junk =
      s ++ cString (strncpy (n - s.length) src) junk := by
  induction s generalizing n with
  | nil => rfl
  | cons b s ih =>
    obtain ⟨hb,hs⟩ := not_or.mp (mt List.mem_cons.mpr hs)
    obtain ⟨n,rfl⟩ : ∃ m, n = m + 1 := ⟨n - 1,by simp at hn; omega⟩
    have hne : ¬ b = 0 := Ne.symm hb
    simp only [List.map_cons,List.cons_append,strncpy,if_neg hne,cString,List.length_cons]
    rw [ih hs (by simpa using hn),Nat.add_sub_add_right]

/-- A copy that has room for the zero ends with it. -/
theorem cString_strncpy_zero {n : ℕ} (hn : n ≠ 0) (src : List Cell) (junk : List UInt8) :
    cString (strncpy n (some 0 :: src)) junk = [] := by
  obtain ⟨n,rfl⟩ := Nat.exists_eq_succ_of_ne_zero hn
  rw [strncpy,if_pos rfl]
  rfl

@[simp] theorem uninit_length (n : ℕ) : (uninit n).length = n := by simp [uninit]

@[simp] theorem window_length (n : ℕ) (buf : List Cell) : (window n buf).length = n := by
  simp only [window,List.length_append,List.length_take,uninit_length]
  omega

theorem window_eq_self {n : ℕ} {buf : List Cell} (h : buf.length = n) : window n buf = buf := by
  simp [window,← h,uninit]

@[simp] theorem strncpy_length (n : ℕ) (src : List Cell) : (strncpy n src).length = n := by
  fun_induction strncpy n src <;> simp_all

@[simp] theorem snprintf_length (n : ℕ) (src : List Cell) : (snprintf n src).length = n := by
  fun_induction snprintf n src <;> simp_all

@[simp] theorem strncpy_nil (n : ℕ) : strncpy n [] = uninit n := by cases n <;> rfl

@[simp] theorem strncpy_uninit (n k : ℕ) : strncpy n (uninit k) = uninit n := by
  cases n with
  | zero => rfl
  | succ n => cases k <;> rfl

/-- Copying does not see where the known part of the source stops. -/
theorem strncpy_append_uninit (n k : ℕ) (src : List Cell) :
    strncpy n (src ++ uninit k) = strncpy n src := by
  induction src generalizing n with
  | nil => simp
  | cons c src ih =>
    cases n with
    | zero => rfl
    | succ n =>
      cases c with
      | none => rfl
      | some b => simp only [List.cons_append,strncpy,ih]

theorem strncpy_take {n : ℕ} (src : List Cell) : strncpy n (src.take n) = strncpy n src := by
  induction n generalizing src with
  | zero => rfl
  | succ n ih =>
    rcases src with _ | ⟨_ | b,src⟩
    · rfl
    · rfl
    · simp only [List.take_succ_cons,strncpy,ih]

theorem strncpy_window {n : ℕ} (src : List Cell) : strncpy n (window n src) = strncpy n src := by
  rw [window,strncpy_append_uninit,strncpy_take]

/-- A string that ends inside the buffer survives `snprintf` followed by `strncpy`. -/
theorem strncpy_snprintf {n : ℕ} {src : List Cell} (h : some 0 ∈ src.take n) :
    strncpy n (snprintf n src) = strncpy n src := by
  induction n generalizing src with
  | zero => rfl
  | succ n ih =>
    cases src with
    | nil => simp at h
    | cons c src =>
      cases n with
      | zero =>
        have hc : c = some 0 := by simpa [eq_comm] using h
        subst c
        rfl
      | succ n =>
        cases c with
        | none => simp [snprintf,uninit,List.replicate_succ,strncpy]
        | some b =>
          by_cases hb : b = 0
          · subst b; simp [snprintf,strncpy]
          · have hs : some 0 ∈ src.take (n + 1) := by
              rw [List.take_succ_cons] at h
              rcases List.mem_cons.mp h with h | h
              · exact absurd (Option.some.inj h).symm hb
              · exact h
            simp only [snprintf,if_neg hb,strncpy,ih hs]

end Memory

/-- The open file: its bytes and the offset of the descriptor. -/
structure File where
  data : List Cell
  off : ℕ
  deriving DecidableEq, Repr

namespace File
open Memory

/-- `lseek(fd, pos, SEEK_SET)`, which fails on a negative position. -/
def lseek (f : File) (pos : ℤ) : Option File :=
  if 0 ≤ pos then some { f with off := pos.toNat } else none

/-- The bytes at `[pos, pos + n)`, fewer where the file ends earlier. -/
def region (f : File) (pos n : ℕ) : List Cell := (f.data.drop pos).take n

/-- A complete `read` of up to `n` bytes. -/
def read (f : File) (n : ℕ) : List Cell × File :=
  let got := f.region f.off n
  (got,{ f with off := f.off + got.length })

/-- Bytes written at an offset; a gap before the offset is filled with zeros. -/
def overwrite (data : List Cell) (off : ℕ) (cells : List Cell) : List Cell :=
  if cells = [] then data else
    (data ++ List.replicate (off - data.length) (some 0)).take off ++ cells ++
      data.drop (off + cells.length)

/-- A complete `write`. -/
def write (f : File) (cells : List Cell) : File :=
  { data := overwrite f.data f.off cells, off := f.off + cells.length }

theorem overwrite_getElem? {data cells : List Cell} {off : ℕ} (hc : cells ≠ []) (i : ℕ) :
    (overwrite data off cells)[i]? =
      if i < off then (data ++ List.replicate (off - data.length) (some 0))[i]?
      else if i < off + cells.length then cells[i - off]? else data[i]? := by
  have hlen : ((data ++ List.replicate (off - data.length) (some 0)).take off).length = off := by
    simp only [List.length_take,List.length_append,List.length_replicate]
    omega
  rw [overwrite,if_neg hc,List.append_assoc]
  by_cases h1 : i < off
  · rw [List.getElem?_append_left (by omega),List.getElem?_take_of_lt h1,if_pos h1]
  · rw [List.getElem?_append_right (by omega),hlen,if_neg h1]
    by_cases h2 : i < off + cells.length
    · rw [List.getElem?_append_left (by omega),if_pos h2]
    · rw [List.getElem?_append_right (by omega),if_neg h2,List.getElem?_drop]
      congr 1
      omega

theorem overwrite_length {data cells : List Cell} {off : ℕ} (hc : cells ≠ []) :
    (overwrite data off cells).length = max data.length (off + cells.length) := by
  rw [overwrite,if_neg hc]
  simp only [List.length_append,List.length_take,List.length_replicate,List.length_drop]
  omega

/-- What was written is what is read back. -/
theorem region_overwrite_self {data cells : List Cell} (off : ℕ) (hc : cells ≠ []) :
    ((overwrite data off cells).drop off).take cells.length = cells := by
  apply List.ext_getElem?
  intro i
  rw [List.getElem?_take]
  by_cases h : i < cells.length
  · have h1 : ¬ off + i < off := by omega
    have h2 : off + i < off + cells.length := by omega
    have h3 : off + i - off = i := by omega
    rw [if_pos h,List.getElem?_drop,overwrite_getElem? hc,if_neg h1,if_pos h2,h3]
  · rw [if_neg h,List.getElem?_eq_none (by omega)]

/-- A region before the write, or after it, keeps its bytes. A region before it must
lie inside the old file, since a gap would be filled. -/
theorem region_overwrite_of_disjoint {data cells : List Cell} {off pos n : ℕ} (hc : cells ≠ [])
    (h : off + cells.length ≤ pos ∨ pos + n ≤ off ∧ pos + n ≤ data.length) :
    ((overwrite data off cells).drop pos).take n = (data.drop pos).take n := by
  apply List.ext_getElem?
  intro i
  rw [List.getElem?_take,List.getElem?_take]
  by_cases hi : i < n
  · rw [if_pos hi,if_pos hi,List.getElem?_drop,List.getElem?_drop,overwrite_getElem? hc]
    rcases h with h | ⟨h,hd⟩
    · rw [if_neg (by omega),if_neg (by omega)]
    · rw [if_pos (by omega),List.getElem?_append_left (by omega)]
  · rw [if_neg hi,if_neg hi]

end File

end BTRx
