import BTRx.Base.LittleEndian

/-! # JSON values as the vendored library builds them

Only the values the packets use are kept: no floats and no binary values. A brace list
is an object when each of its elements is a two-element array with a string in front,
and an array otherwise. Every exception of the library leaves its caller uncaught.
-/
namespace BTRx
open LittleEndian

inductive Json
  | null
  | boolean (b : Bool)
  | number_integer (i : ℤ)
  | number_unsigned (n : ℕ)
  | string (s : Bytes)
  | array (xs : List Json)
  | object (kvs : List (Bytes × Json))
  deriving Repr

/-- `j.at(key)`. Where a document repeats a key, its last value stands. -/
def Json.at (j : Json) (key : Bytes) : Except Fault Json :=
  match j with
  | .object kvs =>
    match kvs.reverse.lookup key with
    | some v => .ok v
    | none => .error .uncaught
  | _ => .error .uncaught

namespace Json

/-- The bytes of a string literal. -/
def str (s : String) : Bytes := s.toList.map (fun c => UInt8.ofNat c.toNat)

/-- The element test of the initializer-list constructor. -/
def pair? : Json → Option (Bytes × Json)
  | .array [.string k,v] => some (k,v)
  | _ => none

/-- `map::emplace`: keys are kept in order and a present key keeps its value. -/
def emplace (k : Bytes) (v : Json) : List (Bytes × Json) → List (Bytes × Json)
  | [] => [(k,v)]
  | (k',v') :: kvs =>
    if k = k' then (k',v') :: kvs
    else if k < k' then (k,v) :: (k',v') :: kvs
    else (k',v') :: emplace k v kvs

/-- `json{init...}`. -/
def braces (init : List Json) : Json :=
  match init.mapM pair? with
  | some kvs => .object (kvs.foldl (fun o kv => emplace kv.1 kv.2 o) [])
  | none => .array init

/-- `get<unsigned>()` into a type of `bits` bits: any number, reduced. -/
def getUnsigned (bits : ℕ) : Json → Except Fault ℕ
  | .number_integer i => .ok (i % 2 ^ bits).toNat
  | .number_unsigned n => .ok (n % 2 ^ bits)
  | .boolean b => .ok b.toNat
  | _ => .error .uncaught

def getString : Json → Except Fault Bytes
  | .string s => .ok s
  | _ => .error .uncaught

def getArray : Json → Except Fault (List Json)
  | .array xs => .ok xs
  | _ => .error .uncaught

def getByte (j : Json) : Except Fault UInt8 := do
  return UInt8.ofNat (← j.getUnsigned 8)

/-- `get<vector<uint8_t>>()`. -/
def getBytes (j : Json) : Except Fault Bytes := do
  (← j.getArray).mapM getByte

/-! ## Reading back forgets the sign -/

mutual
/-- The value with every unsigned number turned into a signed one. -/
def signedForm : Json → Json
  | .number_unsigned n => .number_integer n
  | .array xs => .array (signedElements xs)
  | .object kvs => .object (signedFields kvs)
  | j => j

def signedElements : List Json → List Json
  | [] => []
  | x :: xs => signedForm x :: signedElements xs

def signedFields : List (Bytes × Json) → List (Bytes × Json)
  | [] => []
  | (k,v) :: kvs => (k,signedForm v) :: signedFields kvs
end

theorem signedElements_eq_map (xs : List Json) : signedElements xs = xs.map signedForm := by
  induction xs with
  | nil => rfl
  | cons x xs ih => simp [signedElements,ih]

theorem signedFields_eq_map (kvs : List (Bytes × Json)) :
    signedFields kvs = kvs.map (fun kv => (kv.1,signedForm kv.2)) := by
  induction kvs with
  | nil => rfl
  | cons kv kvs ih => simp [signedFields,ih]

theorem getUnsigned_signedForm (bits : ℕ) (j : Json) :
    getUnsigned bits (signedForm j) = getUnsigned bits j := by
  cases j <;> simp [signedForm,getUnsigned]
  norm_cast

theorem getString_signedForm (j : Json) : getString (signedForm j) = getString j := by
  cases j <;> simp [signedForm,getString]

theorem getByte_signedForm (j : Json) : getByte (signedForm j) = getByte j := by
  rw [getByte,getUnsigned_signedForm,getByte]

theorem getBytes_signedForm (j : Json) : getBytes (signedForm j) = getBytes j := by
  cases j with
  | array xs =>
    simp only [signedForm,getBytes,getArray,Outcome.ok_bind,signedElements_eq_map]
    induction xs with
    | nil => rfl
    | cons x xs ih => simp only [List.map_cons,List.mapM_cons,getByte_signedForm,ih]
  | _ => simp [signedForm,getBytes,getArray]

private theorem lookup_signed (kvs : List (Bytes × Json)) (key : Bytes) :
    (kvs.map (fun kv => (kv.1,signedForm kv.2))).lookup key = (kvs.lookup key).map signedForm := by
  induction kvs with
  | nil => rfl
  | cons kv kvs ih =>
    obtain ⟨k,v⟩ := kv
    simp only [List.map_cons,List.lookup_cons]
    cases key == k with
    | true => rfl
    | false => exact ih

theorem at_signedForm (j : Json) (key : Bytes) :
    (signedForm j).at key = (j.at key).map signedForm := by
  cases j with
  | object kvs =>
    simp only [signedForm,Json.at,signedFields_eq_map,← List.map_reverse,lookup_signed]
    cases kvs.reverse.lookup key <;> rfl
  | _ => rfl

end Json

end BTRx
