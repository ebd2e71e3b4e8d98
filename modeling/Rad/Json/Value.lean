import Rad.Text.Ascii

/-!
# JSON values (include/rad/json/value.h, src/json/json_value.cpp)

A double is its bits: what it is to read or to write one is left to the standard library, and no result here looks into
it. An object is the vector of its members.
-/

namespace Rad.Json

inductive Value where
  | null
  | bool (b : Bool)
  | int64 (i : Int64)
  | uint64 (u : UInt64)
  | double (bits : UInt64)
  | string (s : Bytes)
  | array (values : List Value)
  | object (keysValues : List (Bytes × Value))

abbrev Members := List (Bytes × Value)

/-! ## Objects -/

/-- `object::find`, with the value that the key is mapped to. -/
def Members.find (o : Members) (key : Bytes) : Option Value :=
  match o with
  | [] => none
  | (k, v) :: o => if k = key then some v else Members.find o key

/-- `object::insert_or_assign`: a key that is there keeps its place and gets the new value. -/
def Members.insertOrAssign (o : Members) (key : Bytes) (v : Value) : Members :=
  match o with
  | [] => [(key, v)]
  | (k, w) :: o => if k = key then (k, v) :: o else (k, w) :: Members.insertOrAssign o key v

theorem Members.find_mem {o : Members} {key : Bytes} {v : Value} (h : o.find key = some v) : (key, v) ∈ o := by
  induction o with
  | nil => cases h
  | cons kw o ih =>
      obtain ⟨k, w⟩ := kw
      rw [Members.find] at h
      split at h
      · rename_i hk
        cases h
        exact hk ▸ List.mem_cons_self
      · exact List.mem_cons_of_mem _ (ih h)

/-! ## Equality -/

def isNan (bits : UInt64) : Bool :=
  bits &&& 0x7ff0000000000000 == 0x7ff0000000000000 && bits &&& 0x000fffffffffffff != 0

def isInf (bits : UInt64) : Bool :=
  bits &&& 0x7ff0000000000000 == 0x7ff0000000000000 && bits &&& 0x000fffffffffffff == 0

/-- `==` of two doubles: no NaN is equal to anything, and the two zeros are equal. -/
def doubleEqual (a b : UInt64) : Bool :=
  !isNan a && !isNan b && (a == b || (a <<< 1 == 0 && b <<< 1 == 0))

/-- `value::equal`, with `object::equal` and the comparison of arrays. -/
def Value.equal : Value → Value → Bool
  | .int64 i, .uint64 u => decide (0 ≤ i) && i.toUInt64 == u
  | .uint64 u, .int64 i => decide (0 ≤ i) && i.toUInt64 == u
  | .null, .null => true
  | .bool a, .bool b => a == b
  | .int64 a, .int64 b => a == b
  | .uint64 a, .uint64 b => a == b
  | .double a, .double b => doubleEqual a b
  | .string a, .string b => a == b
  | .array a, .array b => a.length == b.length && (a.zip b).attach.all fun p => Value.equal p.1.1 p.1.2
  | .object a, .object b =>
    a.length == b.length && a.attach.all fun kv =>
      match _h : Members.find b kv.1.1 with
      | none => false
      | some w => Value.equal w kv.1.2
  | _, _ => false
  termination_by a b => sizeOf a + sizeOf b
  decreasing_by
    · obtain ⟨⟨x, y⟩, hp⟩ := p
      obtain ⟨h1, h2⟩ := List.of_mem_zip hp
      have := List.sizeOf_lt_of_mem h1
      have := List.sizeOf_lt_of_mem h2
      simp only [Value.array.sizeOf_spec]
      omega
    · obtain ⟨⟨k, v⟩, hkv⟩ := kv
      have h1 := List.sizeOf_lt_of_mem hkv
      have h2 := List.sizeOf_lt_of_mem (Members.find_mem _h)
      simp only [Value.object.sizeOf_spec, Prod.mk.sizeOf_spec] at h1 h2 ⊢
      omega

/-! ## The value stack -/

inductive StackItem where
  | value (v : Value)
  | key (s : Bytes)

/-- `value_stack`. Characters are pushed only when there are some, so `has_pending_chars_` is that there are any. -/
structure ValueStack where
  stackChars : Bytes := []
  /-- The back of the stack comes first. -/
  stack : List StackItem := []

namespace ValueStack

def pushValue (s : ValueStack) (v : Value) : ValueStack := { s with stack := .value v :: s.stack }

def pushChars (s : ValueStack) (chars : Bytes) : ValueStack := { s with stackChars := s.stackChars ++ chars }

def pushString (s : ValueStack) (chars : Bytes) : ValueStack :=
  { stackChars := [], stack := .value (.string (s.stackChars ++ chars)) :: s.stack }

def pushKey (s : ValueStack) (chars : Bytes) : ValueStack :=
  { stackChars := [], stack := .key (s.stackChars ++ chars) :: s.stack }

/-- The elements of an array that is being built. -/
def elements : List StackItem → Option (List Value)
  | [] => some []
  | .value v :: items => (elements items).map (v :: ·)
  | .key _ :: _ => none

/-- The members that are assigned to an object that is being built. -/
def members (o : Members) : List StackItem → Option Members
  | [] => some o
  | .key k :: .value v :: items => members (o.insertOrAssign k v) items
  | _ => none

/-- `none` where the behaviour of the code is not defined: fewer items than there are to be, or of another kind. -/
def pushArray (s : ValueStack) (n : Nat) : Option ValueStack :=
  if s.stack.length < n then none
  else (elements (s.stack.take n).reverse).map fun a => { s with stack := .value (.array a) :: s.stack.drop n }

def pushObject (s : ValueStack) (n : Nat) : Option ValueStack :=
  if s.stack.length < n * 2 then none
  else
    (members [] (s.stack.take (n * 2)).reverse).map fun o =>
      { s with stack := .value (.object o) :: s.stack.drop (n * 2) }

/-- The value at the front is given out and the back is popped; the code asserts that they are one item. -/
def release (s : ValueStack) : Option (Value × ValueStack) :=
  match s.stack.getLast? with
  | some (.value v) => some (v, { s with stack := s.stack.tail })
  | _ => none

end ValueStack

end Rad.Json
