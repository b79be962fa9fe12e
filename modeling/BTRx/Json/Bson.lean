import BTRx.Json.Value

/-! # BSON documents of the vendored library

The writer puts the length of a document in its first four bytes; the reader skips that
number and stops at the zero byte that closes the element list, so that the end of the
input decides. Reading what was written gives the value back with signed numbers, and
no proper part of a document at its beginning can be read.
-/
namespace BTRx.Bson
open LittleEndian Json

/-- `std::to_string` of an array index. -/
def indexKey (n : ℕ) : Bytes :=
  if n = 0 then [48] else (Nat.digits 10 n).reverse.map (fun d => UInt8.ofNat (48 + d))

/-- `write_bson_entry_header`; a key with a zero byte is rejected. -/
def header (tag : UInt8) (key : Bytes) : Except Fault Bytes :=
  if 0 ∈ key then .error .uncaught else .ok (tag :: key ++ [0])

/-- The size prefix and the closing zero around an element list. -/
def enclose (body : Bytes) : Bytes := le 4 (body.length + 5) ++ body ++ [0]

def writeInteger (key : Bytes) (i : ℤ) : Except Fault Bytes := do
  if -2 ^ 31 ≤ i ∧ i < 2 ^ 31 then
    return (← header 0x10 key) ++ le 4 (unsigned 4 i)
  else if -2 ^ 63 ≤ i ∧ i < 2 ^ 63 then
    return (← header 0x12 key) ++ le 8 (unsigned 8 i)
  else
    throw .uncaught

mutual
/-- `write_bson_element`. -/
def writeElement (key : Bytes) : Json → Except Fault Bytes
  | .null => header 0x0A key
  | .boolean b => do return (← header 0x08 key) ++ [if b then 1 else 0]
  | .number_integer i => writeInteger key i
  | .number_unsigned n => writeInteger key n
  | .string s => do return (← header 0x02 key) ++ le 4 (s.length + 1) ++ s ++ [0]
  | .array xs => do return (← header 0x04 key) ++ enclose (← writeElements 0 xs)
  | .object kvs => do return (← header 0x03 key) ++ enclose (← writeFields kvs)

def writeElements (i : ℕ) : List Json → Except Fault Bytes
  | [] => .ok []
  | x :: xs => do return (← writeElement (indexKey i) x) ++ (← writeElements (i + 1) xs)

def writeFields : List (Bytes × Json) → Except Fault Bytes
  | [] => .ok []
  | (k,v) :: kvs => do return (← writeElement k v) ++ (← writeFields kvs)
end

/-- `json::to_bson`. -/
def toBson : Json → Except Fault Bytes
  | .object kvs => do return enclose (← writeFields kvs)
  | _ => .error .uncaught

/-- The next `n` bytes of the input. -/
def getRaw (n : ℕ) (bs : Bytes) : Except Fault (Bytes × Bytes) :=
  if n ≤ bs.length then .ok (bs.take n,bs.drop n) else .error .uncaught

/-- `get_bson_cstr`. -/
def getCstr : Bytes → Except Fault (Bytes × Bytes)
  | [] => .error .uncaught
  | b :: bs => do
    if b = 0 then return ([],bs)
    let (s,rest) ← getCstr bs
    return (b :: s,rest)

/-- `get_bson_string`: the byte after the string is read but not looked at. -/
def getString (bs : Bytes) : Except Fault (Bytes × Bytes) := do
  let (len,bs) ← getRaw 4 bs
  let n := signed 4 (ofLE len)
  if n < 1 then throw .uncaught
  let (s,bs) ← getRaw (n.toNat - 1) bs
  let (_,bs) ← getRaw 1 bs
  return (s,bs)

/-- `parse_bson_element_internal`, with the reader of element lists as a parameter. The tag 0x01
of a double, which the library reads, is refused here: `Json` has no doubles, and no document
that the program writes holds one. -/
def readValue (list : Bytes → Except Fault (List (Bytes × Json) × Bytes)) (tag : UInt8)
    (bs : Bytes) : Except Fault (Json × Bytes) := do
  if tag = 0x02 then
    let (s,bs) ← getString bs
    return (.string s,bs)
  else if tag = 0x03 then
    let (_,bs) ← getRaw 4 bs
    let (kvs,bs) ← list bs
    return (.object kvs,bs)
  else if tag = 0x04 then
    let (_,bs) ← getRaw 4 bs
    let (kvs,bs) ← list bs
    return (.array (kvs.map Prod.snd),bs)
  else if tag = 0x08 then
    let (b,bs) ← getRaw 1 bs
    return (.boolean (b != [0]),bs)
  else if tag = 0x0A then
    return (.null,bs)
  else if tag = 0x10 then
    let (n,bs) ← getRaw 4 bs
    return (.number_integer (signed 4 (ofLE n)),bs)
  else if tag = 0x12 then
    let (n,bs) ← getRaw 8 bs
    return (.number_integer (signed 8 (ofLE n)),bs)
  else
    throw .uncaught

/-- `parse_bson_element_list`. Each element takes at least one byte, so the length of
the input bounds the recursion. -/
def readList : ℕ → Bytes → Except Fault (List (Bytes × Json) × Bytes)
  | 0, _ => .error .uncaught
  | _ + 1, [] => .error .uncaught
  | fuel + 1, tag :: bs => do
    if tag = 0 then return ([],bs)
    let (key,bs) ← getCstr bs
    let (v,bs) ← readValue (readList fuel) tag bs
    let (kvs,bs) ← readList fuel bs
    return ((key,v) :: kvs,bs)

/-- `json::from_bson`, strict: the whole input has to be one document. -/
def fromBson (bs : Bytes) : Except Fault Json := do
  let (_,rest) ← getRaw 4 bs
  let (kvs,rest) ← readList bs.length rest
  if rest = [] then return .object kvs
  throw .uncaught

/-! ## More input after the part that was read changes nothing -/

theorem getRaw_append {n : ℕ} {bs a r : Bytes} (h : getRaw n bs = .ok (a,r)) (t : Bytes) :
    getRaw n (bs ++ t) = .ok (a,r ++ t) := by
  unfold getRaw at h ⊢
  by_cases hn : n ≤ bs.length
  · rw [if_pos hn] at h
    cases h
    rw [if_pos (by simp only [List.length_append]; omega),List.take_append_of_le_length hn,
      List.drop_append_of_le_length hn]
  · rw [if_neg hn] at h
    cases h

theorem getCstr_append {bs a r : Bytes} (h : getCstr bs = .ok (a,r)) (t : Bytes) :
    getCstr (bs ++ t) = .ok (a,r ++ t) := by
  induction bs generalizing a with
  | nil => cases h
  | cons b bs ih =>
    simp only [List.cons_append,getCstr] at h ⊢
    by_cases hb : b = 0
    · rw [if_pos hb] at h ⊢
      cases h
      rfl
    · rw [if_neg hb] at h ⊢
      obtain ⟨⟨s,rest⟩,hs,h⟩ := Outcome.bind_eq_ok.mp h
      cases h
      rw [ih hs]
      rfl

theorem getString_append {bs a r : Bytes} (h : getString bs = .ok (a,r)) (t : Bytes) :
    getString (bs ++ t) = .ok (a,r ++ t) := by
  unfold getString at h ⊢
  obtain ⟨⟨len,bs₁⟩,h₁,h⟩ := Outcome.bind_eq_ok.mp h
  rw [getRaw_append h₁]
  simp only [Outcome.ok_bind] at h ⊢
  by_cases hn : signed 4 (ofLE len) < 1
  · rw [if_pos hn] at h
    cases h
  · rw [if_neg hn] at h ⊢
    obtain ⟨⟨s,bs₂⟩,h₂,h⟩ := Outcome.bind_eq_ok.mp h
    obtain ⟨⟨z,bs₃⟩,h₃,h⟩ := Outcome.bind_eq_ok.mp h
    cases h
    simp only [getRaw_append h₂,Outcome.ok_bind,getRaw_append h₃,Outcome.pure_eq]

/-- `list'` reads everything `list` reads, also with more input behind it. -/
def Extends (list list' : Bytes → Except Fault (List (Bytes × Json) × Bytes)) : Prop :=
  ∀ bs kvs r, list bs = .ok (kvs,r) → ∀ t, list' (bs ++ t) = .ok (kvs,r ++ t)

theorem readValue_append {list list' : Bytes → Except Fault (List (Bytes × Json) × Bytes)}
    (hl : Extends list list') {tag : UInt8} {bs r : Bytes} {v : Json}
    (h : readValue list tag bs = .ok (v,r)) (t : Bytes) :
    readValue list' tag (bs ++ t) = .ok (v,r ++ t) := by
  unfold readValue at h ⊢
  split_ifs at h ⊢ with h2 h3 h4 h8 hA h10 h12
  · obtain ⟨⟨s,bs₁⟩,h₁,h⟩ := Outcome.bind_eq_ok.mp h
    cases h
    rw [getString_append h₁]
    rfl
  · obtain ⟨⟨s,bs₁⟩,h₁,h⟩ := Outcome.bind_eq_ok.mp h
    obtain ⟨⟨kvs,bs₂⟩,h₂,h⟩ := Outcome.bind_eq_ok.mp h
    cases h
    simp only [getRaw_append h₁,Outcome.ok_bind,hl _ _ _ h₂,Outcome.pure_eq]
  · obtain ⟨⟨s,bs₁⟩,h₁,h⟩ := Outcome.bind_eq_ok.mp h
    obtain ⟨⟨kvs,bs₂⟩,h₂,h⟩ := Outcome.bind_eq_ok.mp h
    cases h
    simp only [getRaw_append h₁,Outcome.ok_bind,hl _ _ _ h₂,Outcome.pure_eq]
  · obtain ⟨⟨b,bs₁⟩,h₁,h⟩ := Outcome.bind_eq_ok.mp h
    cases h
    simp only [getRaw_append h₁,Outcome.ok_bind,Outcome.pure_eq]
  · cases h
    rfl
  · obtain ⟨⟨n,bs₁⟩,h₁,h⟩ := Outcome.bind_eq_ok.mp h
    cases h
    simp only [getRaw_append h₁,Outcome.ok_bind,Outcome.pure_eq]
  · obtain ⟨⟨n,bs₁⟩,h₁,h⟩ := Outcome.bind_eq_ok.mp h
    cases h
    simp only [getRaw_append h₁,Outcome.ok_bind,Outcome.pure_eq]

theorem readList_append (n : ℕ) : ∀ m, n ≤ m → Extends (readList n) (readList m) := by
  induction n with
  | zero => intro m _ bs kvs r h; cases h
  | succ n ih =>
    intro m hm bs kvs r h t
    obtain ⟨m,rfl⟩ : ∃ k, m = k + 1 := ⟨m - 1,by omega⟩
    cases bs with
    | nil => cases h
    | cons tag bs =>
      simp only [List.cons_append,readList] at h ⊢
      by_cases htag : tag = 0
      · rw [if_pos htag] at h ⊢
        cases h
        rfl
      · rw [if_neg htag] at h ⊢
        obtain ⟨⟨key,bs₁⟩,h₁,h⟩ := Outcome.bind_eq_ok.mp h
        obtain ⟨⟨v,bs₂⟩,h₂,h⟩ := Outcome.bind_eq_ok.mp h
        obtain ⟨⟨kvs',bs₃⟩,h₃,h⟩ := Outcome.bind_eq_ok.mp h
        cases h
        have he := ih m (by omega)
        simp only [getCstr_append h₁,Outcome.ok_bind,readValue_append he h₂,he _ _ _ h₃,
          Outcome.pure_eq]

/-- A document that can be read has no beginning that can be read. -/
theorem fromBson_take {doc : Bytes} {j : Json} (h : fromBson doc = .ok j) {k : ℕ}
    (hk : k < doc.length) : ∃ f, fromBson (doc.take k) = .error f := by
  cases hp : fromBson (doc.take k) with
  | error f => exact ⟨f,rfl⟩
  | ok j' =>
    exfalso
    unfold fromBson at h hp
    obtain ⟨⟨z,bs⟩,h₁,h⟩ := Outcome.bind_eq_ok.mp h
    obtain ⟨⟨kvs,rest⟩,h₂,h⟩ := Outcome.bind_eq_ok.mp h
    obtain ⟨⟨z',bs'⟩,h₁',hp⟩ := Outcome.bind_eq_ok.mp hp
    obtain ⟨⟨kvs',rest'⟩,h₂',hp⟩ := Outcome.bind_eq_ok.mp hp
    have hrest : rest = [] := by by_contra hne; simp [hne] at h
    have hrest' : rest' = [] := by by_contra hne; simp [hne] at hp
    have hraw := getRaw_append h₁' (doc.drop k)
    rw [List.take_append_drop,h₁] at hraw
    cases hraw
    have hlist := readList_append _ doc.length (by simp) _ _ _ h₂' (doc.drop k)
    rw [h₂,hrest,hrest'] at hlist
    have hnil : doc.drop k = [] := by simpa using (congrArg Prod.snd (Except.ok.inj hlist)).symm
    have hlen := congrArg List.length hnil
    simp only [List.length_drop,List.length_nil] at hlen
    omega

end BTRx.Bson
