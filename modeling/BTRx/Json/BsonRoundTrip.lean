import BTRx.Json.Bson

/-! # What `to_bson` writes, `from_bson` reads

The induction follows the writer. An element is a nonzero tag, its key, a zero byte and
a body, and the body is read back in front of any further input as soon as the fuel is
at least its length. Only the size of a string is interpreted by the reader, as a signed
32-bit number, so every string has to stay below `2 ^ 31 - 1` bytes.
-/
namespace BTRx.Bson
open LittleEndian Json

theorem zero_not_mem_indexKey (n : ℕ) : 0 ∉ indexKey n := by
  unfold indexKey
  split
  · decide
  · intro h
    obtain ⟨d,hd,h0⟩ := List.mem_map.mp h
    have hlt := Nat.digits_lt_base (by omega) (List.mem_reverse.mp hd)
    have h1 := congrArg UInt8.toNat h0
    rw [UInt8.toNat_ofNat'] at h1
    change (48 + d) % 256 = 0 at h1
    omega

theorem header_eq_ok {tag : UInt8} {key hd : Bytes} :
    header tag key = .ok hd ↔ 0 ∉ key ∧ hd = tag :: key ++ [0] := by
  unfold header
  by_cases h : 0 ∈ key
  · simp [h]
  · simp [h,eq_comm]

theorem getCstr_key {key : Bytes} (h : 0 ∉ key) (rest : Bytes) :
    getCstr (key ++ 0 :: rest) = .ok (key,rest) := by
  induction key with
  | nil => rfl
  | cons b key ih =>
    obtain ⟨hb,hk⟩ := not_or.mp (fun hm => h (List.mem_cons.mpr hm))
    simp only [List.cons_append,getCstr,if_neg (Ne.symm hb),ih hk,Outcome.ok_bind,Outcome.pure_eq]

theorem getRaw_exact (a rest : Bytes) : getRaw a.length (a ++ rest) = .ok (a,rest) := by
  simp [getRaw]

theorem getRaw_le (k n : ℕ) (rest : Bytes) : getRaw k (le k n ++ rest) = .ok (le k n,rest) := by
  simpa using getRaw_exact (le k n) rest

mutual
/-- Every string inside the value has a size that a document can carry. -/
def StringsFit : Json → Prop
  | .string s => s.length + 1 < 2 ^ 31
  | .array xs => ElementsFit xs
  | .object kvs => FieldsFit kvs
  | _ => True

def ElementsFit : List Json → Prop
  | [] => True
  | x :: xs => StringsFit x ∧ ElementsFit xs

def FieldsFit : List (Bytes × Json) → Prop
  | [] => True
  | (_,v) :: kvs => StringsFit v ∧ FieldsFit kvs
end

/-- The body of an element that reads back as `v` once the fuel covers `size`. -/
def ReadsAs (tag : UInt8) (body : Bytes) (v : Json) (size : ℕ) : Prop :=
  ∀ n rest, size ≤ n → readValue (readList n) tag (body ++ rest) = .ok (v,rest)

/-- An element as it stands in a list. -/
def Element (key w : Bytes) (v : Json) : Prop :=
  ∃ tag body, w = tag :: key ++ 0 :: body ∧ tag ≠ 0 ∧ 0 ∉ key ∧ ReadsAs tag body v w.length

theorem readList_element {key w : Bytes} {v : Json} (h : Element key w v) {n : ℕ}
    (hn : w.length ≤ n) {kvs : List (Bytes × Json)} {bs r : Bytes}
    (hl : readList n bs = .ok (kvs,r)) : readList (n + 1) (w ++ bs) = .ok ((key,v) :: kvs,r) := by
  obtain ⟨tag,body,rfl,htag,hkey,hread⟩ := h
  have hw : tag :: key ++ 0 :: body ++ bs = tag :: (key ++ 0 :: (body ++ bs)) := by simp
  simp only [hw,readList,if_neg htag,getCstr_key hkey,Outcome.ok_bind,hread n bs hn,hl,Outcome.pure_eq]

/-- A signed number that fits in `k` bytes, behind its header. -/
theorem signed_le_unsigned {k : ℕ} {i : ℤ} (hlo : -(256 : ℤ) ^ k ≤ 2 * i) (hhi : 2 * i < 256 ^ k) :
    signed k (ofLE (le k (unsigned k i))) = i := by
  rw [ofLE_le,Nat.mod_eq_of_lt (unsigned_lt k i),signed_unsigned hlo hhi]

theorem writeInteger_element {key w : Bytes} {i : ℤ} (h : writeInteger key i = .ok w) :
    Element key w (.number_integer i) := by
  unfold writeInteger at h
  split_ifs at h with h4 h8
  · obtain ⟨hd,hh,h⟩ := Outcome.bind_eq_ok.mp h
    obtain ⟨hkey,rfl⟩ := header_eq_ok.mp hh
    cases h
    refine ⟨0x10,le 4 (unsigned 4 i),by simp,by decide,hkey,?_⟩
    intro n rest _
    have hs := signed_le_unsigned (k := 4) (i := i) (by omega) (by omega)
    simp [readValue,getRaw_le,hs]
  · obtain ⟨hd,hh,h⟩ := Outcome.bind_eq_ok.mp h
    obtain ⟨hkey,rfl⟩ := header_eq_ok.mp hh
    cases h
    refine ⟨0x12,le 8 (unsigned 8 i),by simp,by decide,hkey,?_⟩
    intro n rest _
    have hs := signed_le_unsigned (k := 8) (i := i) (by omega) (by omega)
    simp [readValue,getRaw_le,hs]

theorem getString_written {s : Bytes} (hs : s.length + 1 < 2 ^ 31) (rest : Bytes) :
    getString (le 4 (s.length + 1) ++ s ++ [0] ++ rest) = .ok (s,rest) := by
  have hlt : s.length + 1 < 256 ^ 4 := by omega
  have hsigned : signed 4 (ofLE (le 4 (s.length + 1))) = s.length + 1 := by
    rw [ofLE_le,Nat.mod_eq_of_lt hlt,signed,if_pos (by omega)]
    push_cast
    ring
  have hn : ¬ ((s.length : ℤ) + 1 < 1) := by omega
  have ht : ((s.length : ℤ) + 1).toNat - 1 = s.length := by omega
  have hz : getRaw 1 (0 :: rest) = .ok ([0],rest) := rfl
  simp only [getString,List.append_assoc,getRaw_le,Outcome.ok_bind,hsigned,if_neg hn,ht,getRaw_exact,
    List.singleton_append,hz,Outcome.pure_eq]

mutual
theorem writeElement_element : ∀ (v : Json) (key w : Bytes), StringsFit v →
    writeElement key v = .ok w → Element key w (signedForm v)
  | .null => by
    intro key w _ h
    simp only [writeElement] at h
    obtain ⟨hkey,rfl⟩ := header_eq_ok.mp h
    exact ⟨0x0A,[],by simp,by decide,hkey,fun n rest _ => by simp [readValue,signedForm]⟩
  | .boolean b => by
    intro key w _ h
    simp only [writeElement] at h
    obtain ⟨hd,hh,h⟩ := Outcome.bind_eq_ok.mp h
    obtain ⟨hkey,rfl⟩ := header_eq_ok.mp hh
    cases h
    refine ⟨0x08,[if b then 1 else 0],by simp,by decide,hkey,?_⟩
    intro n rest _
    cases b <;> simp [readValue,getRaw,signedForm]
  | .number_integer i => by
    intro key w _ h
    simp only [writeElement] at h
    exact writeInteger_element h
  | .number_unsigned i => by
    intro key w _ h
    simp only [writeElement] at h
    exact writeInteger_element h
  | .string s => by
    intro key w hfit h
    simp only [writeElement] at h
    obtain ⟨hd,hh,h⟩ := Outcome.bind_eq_ok.mp h
    obtain ⟨hkey,rfl⟩ := header_eq_ok.mp hh
    cases h
    refine ⟨0x02,le 4 (s.length + 1) ++ s ++ [0],by simp,by decide,hkey,?_⟩
    intro n rest _
    have hs : s.length + 1 < 2 ^ 31 := by simpa [StringsFit] using hfit
    simp only [readValue,if_true,getString_written hs,Outcome.ok_bind,Outcome.pure_eq,signedForm]
  | .array xs => by
    intro key w hfit h
    simp only [writeElement] at h
    obtain ⟨hd,hh,h⟩ := Outcome.bind_eq_ok.mp h
    obtain ⟨body,hb,h⟩ := Outcome.bind_eq_ok.mp h
    obtain ⟨hkey,rfl⟩ := header_eq_ok.mp hh
    cases h
    simp only [StringsFit] at hfit
    refine ⟨0x04,enclose body,by simp,by decide,hkey,?_⟩
    intro n rest hn
    simp only [enclose,List.length_append,List.length_cons,List.length_nil,le_length] at hn
    obtain ⟨kvs,hl,hkvs⟩ := readList_writeElements xs _ _ hfit hb n rest (by omega)
    simp [readValue,enclose,getRaw_le,hl,hkvs,signedForm]
  | .object kvs => by
    intro key w hfit h
    simp only [writeElement] at h
    obtain ⟨hd,hh,h⟩ := Outcome.bind_eq_ok.mp h
    obtain ⟨body,hb,h⟩ := Outcome.bind_eq_ok.mp h
    obtain ⟨hkey,rfl⟩ := header_eq_ok.mp hh
    cases h
    simp only [StringsFit] at hfit
    refine ⟨0x03,enclose body,by simp,by decide,hkey,?_⟩
    intro n rest hn
    simp only [enclose,List.length_append,List.length_cons,List.length_nil,le_length] at hn
    have hl := readList_writeFields kvs _ hfit hb n rest (by omega)
    simp [readValue,enclose,getRaw_le,hl,signedForm]

theorem readList_writeElements : ∀ (xs : List Json) (i : ℕ) (w : Bytes),
    ElementsFit xs → writeElements i xs = .ok w → ∀ n rest, w.length < n →
    ∃ kvs, readList n (w ++ 0 :: rest) = .ok (kvs,rest) ∧ kvs.map Prod.snd = signedElements xs
  | [] => by
    intro i w _ h n rest hn
    cases h
    obtain ⟨n,rfl⟩ : ∃ m, n = m + 1 := ⟨n - 1,by omega⟩
    exact ⟨[],rfl,rfl⟩
  | x :: xs => by
    intro i w hfit h n rest hn
    simp only [writeElements] at h
    obtain ⟨w₁,h₁,h⟩ := Outcome.bind_eq_ok.mp h
    obtain ⟨w₂,h₂,h⟩ := Outcome.bind_eq_ok.mp h
    cases h
    simp only [List.length_append] at hn
    simp only [ElementsFit] at hfit
    obtain ⟨n,rfl⟩ : ∃ m, n = m + 1 := ⟨n - 1,by omega⟩
    have hx := writeElement_element x _ _ hfit.1 h₁
    have hpos : 0 < w₁.length := by
      obtain ⟨tag,body,rfl,_⟩ := hx
      simp
    obtain ⟨kvs,hl,hkvs⟩ := readList_writeElements xs _ _ hfit.2 h₂ n rest (by omega)
    refine ⟨(indexKey i,signedForm x) :: kvs,?_,?_⟩
    · rw [List.append_assoc]
      exact readList_element hx (by omega) hl
    · simp [hkvs,signedElements]

theorem readList_writeFields : ∀ (kvs : List (Bytes × Json)) (w : Bytes),
    FieldsFit kvs → writeFields kvs = .ok w → ∀ n rest, w.length < n →
    readList n (w ++ 0 :: rest) = .ok (signedFields kvs,rest)
  | [] => by
    intro w _ h n rest hn
    cases h
    obtain ⟨n,rfl⟩ : ∃ m, n = m + 1 := ⟨n - 1,by omega⟩
    rfl
  | (k,v) :: kvs => by
    intro w hfit h n rest hn
    simp only [writeFields] at h
    obtain ⟨w₁,h₁,h⟩ := Outcome.bind_eq_ok.mp h
    obtain ⟨w₂,h₂,h⟩ := Outcome.bind_eq_ok.mp h
    cases h
    simp only [List.length_append] at hn
    simp only [FieldsFit] at hfit
    obtain ⟨n,rfl⟩ : ∃ m, n = m + 1 := ⟨n - 1,by omega⟩
    have hv := writeElement_element v _ _ hfit.1 h₁
    have hpos : 0 < w₁.length := by
      obtain ⟨tag,body,rfl,_⟩ := hv
      simp
    have hl := readList_writeFields kvs _ hfit.2 h₂ n rest (by omega)
    rw [List.append_assoc]
    exact readList_element hv (by omega) hl
end

theorem toBson_eq_ok {j : Json} {doc : Bytes} (h : toBson j = .ok doc) :
    ∃ kvs body, j = .object kvs ∧ writeFields kvs = .ok body ∧ doc = enclose body := by
  cases j with
  | object kvs =>
    obtain ⟨body,hb,h⟩ := Outcome.bind_eq_ok.mp h
    cases h
    exact ⟨kvs,body,rfl,hb,rfl⟩
  | _ => cases h

/-- Reading a written document gives the value back, up to the sign of its numbers. -/
theorem fromBson_toBson {j : Json} {doc : Bytes} (hfit : StringsFit j) (h : toBson j = .ok doc) :
    fromBson doc = .ok (signedForm j) := by
  obtain ⟨kvs,body,rfl,hb,rfl⟩ := toBson_eq_ok h
  simp only [StringsFit] at hfit
  have hl := readList_writeFields kvs _ hfit hb (enclose body).length []
    (by simp only [enclose,List.length_append,List.length_cons,List.length_nil,le_length]; omega)
  have hraw : getRaw 4 (enclose body) = .ok (le 4 (body.length + 5),body ++ [0]) := by
    rw [enclose,List.append_assoc,getRaw_le]
  simp only [fromBson,hraw,Outcome.ok_bind,hl,if_true,Outcome.pure_eq,signedForm]

theorem five_le_toBson {j : Json} {doc : Bytes} (h : toBson j = .ok doc) : 5 ≤ doc.length := by
  obtain ⟨kvs,body,_,_,rfl⟩ := toBson_eq_ok h
  simp only [enclose,List.length_append,List.length_cons,List.length_nil,le_length]
  omega

/-! ## What can be written -/

/-- A value that can be written under any key without a zero byte. -/
def Writes (v : Json) : Prop := ∀ key, 0 ∉ key → ∃ w, writeElement key v = .ok w

theorem header_of_not_mem {tag : UInt8} {key : Bytes} (h : 0 ∉ key) :
    header tag key = .ok (tag :: key ++ [0]) := header_eq_ok.mpr ⟨h,rfl⟩

theorem writeInteger_ok {key : Bytes} (hkey : 0 ∉ key) {i : ℤ} (hlo : -2 ^ 63 ≤ i) (hhi : i < 2 ^ 63) :
    ∃ w, writeInteger key i = .ok w := by
  unfold writeInteger
  rw [header_of_not_mem hkey,header_of_not_mem hkey]
  split_ifs with h4 h8
  · exact ⟨_,rfl⟩
  · exact ⟨_,rfl⟩
  · exact absurd ⟨hlo,hhi⟩ h8

theorem writes_integer {i : ℤ} (hlo : -2 ^ 63 ≤ i) (hhi : i < 2 ^ 63) : Writes (.number_integer i) := by
  intro key hkey
  simpa only [writeElement] using writeInteger_ok hkey hlo hhi

theorem writes_unsigned {n : ℕ} (h : n < 2 ^ 63) : Writes (.number_unsigned n) := by
  intro key hkey
  simpa only [writeElement] using writeInteger_ok hkey (by omega) (by exact_mod_cast h)

theorem writes_string (s : Bytes) : Writes (.string s) := by
  intro key hkey
  simp [writeElement,header_of_not_mem hkey]

theorem writes_array {xs : List Json} (h : ∀ x ∈ xs, Writes x) : Writes (.array xs) := by
  have hall : ∀ i, ∃ w, writeElements i xs = .ok w := by
    induction xs with
    | nil => exact fun i => ⟨[],rfl⟩
    | cons x xs ih =>
      intro i
      obtain ⟨w₁,h₁⟩ := h x List.mem_cons_self (indexKey i) (zero_not_mem_indexKey i)
      obtain ⟨w₂,h₂⟩ := ih (fun y hy => h y (List.mem_cons_of_mem _ hy)) (i + 1)
      simp [writeElements,h₁,h₂]
  intro key hkey
  obtain ⟨w,hw⟩ := hall 0
  simp [writeElement,header_of_not_mem hkey,hw]

theorem writeFields_ok {kvs : List (Bytes × Json)} (h : ∀ kv ∈ kvs, 0 ∉ kv.1 ∧ Writes kv.2) :
    ∃ w, writeFields kvs = .ok w := by
  induction kvs with
  | nil => exact ⟨[],rfl⟩
  | cons kv kvs ih =>
    obtain ⟨hkey,hv⟩ := h kv List.mem_cons_self
    obtain ⟨w₁,h₁⟩ := hv kv.1 hkey
    obtain ⟨w₂,h₂⟩ := ih (fun kv' hkv => h kv' (List.mem_cons_of_mem _ hkv))
    simp [writeFields,h₁,h₂]

theorem writes_object {kvs : List (Bytes × Json)} (h : ∀ kv ∈ kvs, 0 ∉ kv.1 ∧ Writes kv.2) :
    Writes (.object kvs) := by
  intro key hkey
  obtain ⟨w,hw⟩ := writeFields_ok h
  simp [writeElement,header_of_not_mem hkey,hw]

theorem toBson_ok {kvs : List (Bytes × Json)} (h : ∀ kv ∈ kvs, 0 ∉ kv.1 ∧ Writes kv.2) :
    ∃ doc, toBson (.object kvs) = .ok doc := by
  obtain ⟨w,hw⟩ := writeFields_ok h
  simp [toBson,hw]

/-! ## Every string that is read fits -/

theorem fieldsFit_iff {kvs : List (Bytes × Json)} :
    FieldsFit kvs ↔ ∀ kv ∈ kvs, StringsFit kv.2 := by
  induction kvs with
  | nil => simp [FieldsFit]
  | cons kv kvs ih => simp [FieldsFit,ih]

theorem elementsFit_iff {xs : List Json} : ElementsFit xs ↔ ∀ x ∈ xs, StringsFit x := by
  induction xs with
  | nil => simp [ElementsFit]
  | cons x xs ih => simp [ElementsFit,ih]

mutual
theorem stringsFit_signedForm : ∀ {j : Json}, StringsFit (signedForm j) ↔ StringsFit j
  | .null | .boolean _ | .number_integer _ | .number_unsigned _ | .string _ => by
    simp [signedForm,StringsFit]
  | .array xs => by simp only [signedForm,StringsFit,elementsFit_signedElements]
  | .object kvs => by simp only [signedForm,StringsFit,fieldsFit_signedFields]

theorem elementsFit_signedElements : ∀ {xs : List Json}, ElementsFit (signedElements xs) ↔ ElementsFit xs
  | [] => Iff.rfl
  | _ :: _ => and_congr stringsFit_signedForm elementsFit_signedElements

theorem fieldsFit_signedFields : ∀ {kvs : List (Bytes × Json)}, FieldsFit (signedFields kvs) ↔ FieldsFit kvs
  | [] => Iff.rfl
  | (_,_) :: _ => and_congr stringsFit_signedForm fieldsFit_signedFields
end

theorem signed_lt (bs : Bytes) (h : bs.length = 4) : signed 4 (ofLE bs) < 2 ^ 31 := by
  have hlt := ofLE_lt bs
  rw [h] at hlt
  unfold signed
  split <;> omega

theorem getRaw_length {n : ℕ} {bs a r : Bytes} (h : getRaw n bs = .ok (a,r)) : a.length = n := by
  unfold getRaw at h
  split at h
  · cases h
    simpa
  · cases h

theorem getString_fits {bs s r : Bytes} (h : getString bs = .ok (s,r)) : s.length + 1 < 2 ^ 31 := by
  unfold getString at h
  obtain ⟨⟨len,bs₁⟩,h₁,h⟩ := Outcome.bind_eq_ok.mp h
  have hlt := signed_lt len (getRaw_length h₁)
  by_cases hn : signed 4 (ofLE len) < 1
  · simp [hn] at h
  · simp only [if_neg hn] at h
    obtain ⟨⟨s',bs₂⟩,h₂,h⟩ := Outcome.bind_eq_ok.mp h
    obtain ⟨⟨z,bs₃⟩,h₃,h⟩ := Outcome.bind_eq_ok.mp h
    cases h
    have hlen := getRaw_length h₂
    change s'.length + 1 < 2 ^ 31
    omega

theorem readValue_fits {list : Bytes → Except Fault (List (Bytes × Json) × Bytes)}
    (hl : ∀ bs kvs r, list bs = .ok (kvs,r) → FieldsFit kvs) {tag : UInt8} {bs r : Bytes} {v : Json}
    (h : readValue list tag bs = .ok (v,r)) : StringsFit v := by
  unfold readValue at h
  split_ifs at h with h2 h3 h4 h8 hA h10 h12
  · obtain ⟨⟨s,bs₁⟩,h₁,h⟩ := Outcome.bind_eq_ok.mp h
    cases h
    exact getString_fits h₁
  · obtain ⟨⟨s,bs₁⟩,h₁,h⟩ := Outcome.bind_eq_ok.mp h
    obtain ⟨⟨kvs,bs₂⟩,h₂,h⟩ := Outcome.bind_eq_ok.mp h
    cases h
    exact hl _ _ _ h₂
  · obtain ⟨⟨s,bs₁⟩,h₁,h⟩ := Outcome.bind_eq_ok.mp h
    obtain ⟨⟨kvs,bs₂⟩,h₂,h⟩ := Outcome.bind_eq_ok.mp h
    cases h
    rw [StringsFit,elementsFit_iff]
    intro x hx
    obtain ⟨kv,hkv,rfl⟩ := List.mem_map.mp hx
    exact fieldsFit_iff.mp (hl _ _ _ h₂) kv hkv
  · obtain ⟨⟨b,bs₁⟩,_,h⟩ := Outcome.bind_eq_ok.mp h
    cases h
    trivial
  · cases h
    trivial
  · obtain ⟨⟨n,bs₁⟩,_,h⟩ := Outcome.bind_eq_ok.mp h
    cases h
    trivial
  · obtain ⟨⟨n,bs₁⟩,_,h⟩ := Outcome.bind_eq_ok.mp h
    cases h
    trivial

theorem readList_fits (n : ℕ) :
    ∀ bs kvs r, readList n bs = .ok (kvs,r) → FieldsFit kvs := by
  induction n with
  | zero => intro bs kvs r h; cases h
  | succ n ih =>
    intro bs kvs r h
    cases bs with
    | nil => cases h
    | cons tag bs =>
      simp only [readList] at h
      by_cases htag : tag = 0
      · rw [if_pos htag] at h
        cases h
        trivial
      · rw [if_neg htag] at h
        obtain ⟨⟨key,bs₁⟩,_,h⟩ := Outcome.bind_eq_ok.mp h
        obtain ⟨⟨v,bs₂⟩,h₂,h⟩ := Outcome.bind_eq_ok.mp h
        obtain ⟨⟨kvs',bs₃⟩,h₃,h⟩ := Outcome.bind_eq_ok.mp h
        cases h
        exact ⟨readValue_fits ih h₂,ih _ _ _ h₃⟩

theorem at_fits {j v : Json} {key : Bytes} (hj : StringsFit j) (h : j.at key = .ok v) :
    StringsFit v := by
  cases j with
  | object kvs =>
    unfold Json.at at h
    cases hl : kvs.reverse.lookup key with
    | none => simp [hl] at h
    | some v' =>
      simp only [hl] at h
      cases h
      obtain ⟨before,after,heq,_⟩ := List.lookup_eq_some_iff.mp hl
      have hmem : (key,v) ∈ kvs := List.mem_reverse.mp (by simp [heq])
      exact fieldsFit_iff.mp hj _ hmem
  | _ => cases h

theorem fromBson_fits {doc : Bytes} {j : Json} (h : fromBson doc = .ok j) : StringsFit j := by
  unfold fromBson at h
  obtain ⟨⟨z,bs⟩,_,h⟩ := Outcome.bind_eq_ok.mp h
  obtain ⟨⟨kvs,rest⟩,h₂,h⟩ := Outcome.bind_eq_ok.mp h
  by_cases hrest : rest = []
  · simp only [if_pos hrest] at h
    cases h
    exact readList_fits _ _ _ _ h₂
  · simp [hrest] at h

/-! ## Strings that are too long -/

/-- The size of such a string is written as a number that is not positive. -/
theorem getString_long {s : Bytes} (hlo : 2 ^ 31 ≤ s.length + 1) (hhi : s.length + 1 ≤ 2 ^ 32)
    (rest : Bytes) : getString (le 4 (s.length + 1) ++ s ++ [0] ++ rest) = .error .uncaught := by
  have hsigned : signed 4 (ofLE (le 4 (s.length + 1))) < 1 := by
    rw [ofLE_le,signed]
    split <;> omega
  simp only [getString,List.append_assoc,getRaw_le,Outcome.ok_bind,if_pos hsigned,Outcome.throw_eq,
    Outcome.error_bind]

/-- An element of which the reader cannot read the value. -/
def Unreadable (key w : Bytes) : Prop :=
  ∃ tag body, w = tag :: key ++ 0 :: body ∧ tag ≠ 0 ∧ 0 ∉ key ∧
    ∀ n rest, w.length ≤ n → readValue (readList n) tag (body ++ rest) = .error .uncaught

/-- A value that is written as such an element. -/
def Overlong (v : Json) : Prop := ∀ key w, writeElement key v = .ok w → Unreadable key w

theorem readList_unreadable {key w : Bytes} (h : Unreadable key w) {n : ℕ} (hn : w.length ≤ n) (bs : Bytes) :
    readList (n + 1) (w ++ bs) = .error .uncaught := by
  obtain ⟨tag,body,rfl,htag,hkey,hread⟩ := h
  have hw : tag :: key ++ 0 :: body ++ bs = tag :: (key ++ 0 :: (body ++ bs)) := by simp
  simp only [hw,readList,if_neg htag,getCstr_key hkey,Outcome.ok_bind,hread n bs hn,Outcome.error_bind]

theorem readList_behind {key w : Bytes} {v : Json} (h : Element key w v) {n : ℕ} (hn : w.length ≤ n)
    {bs : Bytes} {f : Fault} (hl : readList n bs = .error f) : readList (n + 1) (w ++ bs) = .error f := by
  obtain ⟨tag,body,rfl,htag,hkey,hread⟩ := h
  have hw : tag :: key ++ 0 :: body ++ bs = tag :: (key ++ 0 :: (body ++ bs)) := by simp
  simp only [hw,readList,if_neg htag,getCstr_key hkey,Outcome.ok_bind,hread n bs hn,hl,Outcome.error_bind]

theorem overlong_string {s : Bytes} (hlo : 2 ^ 31 ≤ s.length + 1) (hhi : s.length + 1 ≤ 2 ^ 32) :
    Overlong (.string s) := by
  intro key w h
  simp only [writeElement] at h
  obtain ⟨hd,hh,h⟩ := Outcome.bind_eq_ok.mp h
  obtain ⟨hkey,rfl⟩ := header_eq_ok.mp hh
  cases h
  refine ⟨0x02,le 4 (s.length + 1) ++ s ++ [0],by simp,by decide,hkey,fun n rest _ => ?_⟩
  simp only [readValue,if_true,getString_long hlo hhi,Outcome.error_bind]

theorem readList_overlong {x : Json} (hx : Overlong x) (ys : List Json) : ∀ (xs : List Json) (i : ℕ) (w : Bytes),
    ElementsFit xs → writeElements i (xs ++ x :: ys) = .ok w → ∀ n rest, w.length < n →
    readList n (w ++ rest) = .error .uncaught
  | [] => by
    intro i w _ h n rest hn
    obtain ⟨w₁,h₁,h⟩ := Outcome.bind_eq_ok.mp h
    obtain ⟨w₂,h₂,h⟩ := Outcome.bind_eq_ok.mp h
    cases h
    simp only [List.length_append] at hn
    obtain ⟨n,rfl⟩ : ∃ m, n = m + 1 := ⟨n - 1,by omega⟩
    rw [List.append_assoc]
    exact readList_unreadable (hx _ _ h₁) (by omega) _
  | y :: xs => by
    intro i w hfit h n rest hn
    obtain ⟨w₁,h₁,h⟩ := Outcome.bind_eq_ok.mp h
    obtain ⟨w₂,h₂,h⟩ := Outcome.bind_eq_ok.mp h
    cases h
    simp only [List.length_append] at hn
    simp only [ElementsFit] at hfit
    obtain ⟨n,rfl⟩ : ∃ m, n = m + 1 := ⟨n - 1,by omega⟩
    have hy := writeElement_element y _ _ hfit.1 h₁
    have hpos : 0 < w₁.length := by
      obtain ⟨tag,body,rfl,_⟩ := hy
      simp
    rw [List.append_assoc]
    exact readList_behind hy (by omega) (readList_overlong hx ys xs _ _ hfit.2 h₂ n rest (by omega))

theorem overlong_array {xs : List Json} (hfit : ElementsFit xs) {x : Json} (hx : Overlong x) (ys : List Json) :
    Overlong (.array (xs ++ x :: ys)) := by
  intro key w h
  simp only [writeElement] at h
  obtain ⟨hd,hh,h⟩ := Outcome.bind_eq_ok.mp h
  obtain ⟨body,hb,h⟩ := Outcome.bind_eq_ok.mp h
  obtain ⟨hkey,rfl⟩ := header_eq_ok.mp hh
  cases h
  refine ⟨0x04,enclose body,by simp,by decide,hkey,fun n rest hn => ?_⟩
  simp only [enclose,List.length_append,List.length_cons,List.length_nil,le_length] at hn
  have hl := readList_overlong hx ys xs _ _ hfit hb n ([0] ++ rest) (by omega)
  simp only [readValue,enclose,List.append_assoc,getRaw_le,Outcome.ok_bind,hl,Outcome.error_bind]
  rfl

/-- A document whose first field is too long cannot be read. -/
theorem fromBson_overlong {key : Bytes} {v : Json} (hv : Overlong v) {kvs : List (Bytes × Json)}
    {doc : Bytes} (h : toBson (.object ((key,v) :: kvs)) = .ok doc) : fromBson doc = .error .uncaught := by
  obtain ⟨_,body,hj,hb,rfl⟩ := toBson_eq_ok h
  cases hj
  obtain ⟨w₁,h₁,hb⟩ := Outcome.bind_eq_ok.mp hb
  obtain ⟨w₂,h₂,hb⟩ := Outcome.bind_eq_ok.mp hb
  cases hb
  have hsize : (enclose (w₁ ++ w₂)).length = w₁.length + w₂.length + 4 + 1 := by
    simp only [enclose,List.length_append,List.length_cons,List.length_nil,le_length]
    omega
  have hl := readList_unreadable (hv _ _ h₁) (n := w₁.length + w₂.length + 4) (by omega) (w₂ ++ [0])
  have hraw : getRaw 4 (enclose (w₁ ++ w₂)) = .ok (le 4 ((w₁ ++ w₂).length + 5),w₁ ++ (w₂ ++ [0])) := by
    rw [enclose,List.append_assoc,getRaw_le,List.append_assoc]
  simp only [fromBson,hraw,Outcome.ok_bind,hsize,hl,Outcome.error_bind]

end BTRx.Bson
