import Rad.Json.Grammar
import Rad.Json.Serializer

/-!
# What is read back

The text that the serializer writes for a value is read here as JSON: what it denotes is the value, but for the control
characters whose only hexadecimal digit is written over the wrong zero.
-/

namespace Rad.Json

/-! ## The text of a value

What the serializer writes for a value, said without a stack: the texts that the entries of a stack have still to write,
and which entries a serializer comes to have.
-/

section

variable (opts : SerializeOptions)

/-- A character inside a string. -/
def escape (ch : UInt8) : Bytes :=
  if hasShortEscape opts ch then [0x5c, escapeChar ch] else if ch ≤ 0x1f then hexStr ch else [ch]

def escaped (s : Bytes) : Bytes := s.flatMap (escape opts)

def quoted (s : Bytes) : Bytes := 0x22 :: (escaped opts s ++ [0x22])

def keyText (s : Bytes) : Bytes := 0x22 :: (escaped opts s ++ keySymbols)

variable (doubleToChars : UInt64 → Option Bytes)

def doubleText (d : UInt64) : Bytes :=
  match makeDoubleValueEntry doubleToChars opts d with
  | .doubleValue text => text
  | _ => []

mutual
/-- The text for a value. -/
def Value.text : Value → Bytes
  | .null => ascii "null"
  | .bool b => if b then ascii "true" else ascii "false"
  | .int64 i => toCharsInt i.toInt
  | .uint64 u => toChars 10 u.toNat
  | .double d => doubleText opts doubleToChars d
  | .string s => quoted opts s
  | .array a => 0x5b :: Value.textElements a
  | .object o => 0x7b :: Value.textMembers o

/-- The elements of an array from one of them on, and the closing bracket. -/
def Value.textElements : List Value → Bytes
  | [] => [0x5d]
  | [v] => Value.text v ++ [0x5d]
  | v :: w :: vs => Value.text v ++ ascii ", " ++ Value.textElements (w :: vs)

/-- The members of an object from one of them on, and the closing bracket. -/
def Value.textMembers : Members → Bytes
  | [] => [0x7d]
  | [(k, v)] => keyText opts k ++ Value.text v ++ [0x7d]
  | (k, v) :: kw :: o => keyText opts k ++ Value.text v ++ ascii ", " ++ Value.textMembers (kw :: o)
end

/-- What is left of a string when the last `escapeLen` bytes of the escape of its first character are not written. -/
def escapedFrom (s : Bytes) (escapeLen : Nat) : Bytes :=
  match s with
  | [] => []
  | ch :: s =>
    (if escapeLen = 0 then escape opts ch else (escape opts ch).drop ((escape opts ch).length - escapeLen)) ++
      escaped opts s

/-- What an entry of the stack has still to write. -/
def Entry.pending : Entry → Bytes
  | .nullValue written => (ascii "null").drop written
  | .boolValue b written => (if b then ascii "true" else ascii "false").drop written
  | .int64Value text => text
  | .uint64Value text => text
  | .doubleValue text => text
  | .stringValue s quotes escapeLen => (if quotes = 0 then [0x22] else []) ++ escapedFrom opts s escapeLen ++ [0x22]
  | .key s escapeLen quotes =>
    (if quotes = 0 then [0x22] else []) ++ escapedFrom opts s escapeLen ++ keySymbols.drop (quotes - 1)
  | .emptyArray written => (ascii "[]").drop written
  | .arrayValue items firstBracket =>
    (if firstBracket then [] else [0x5b]) ++ Value.textElements opts doubleToChars items
  | .emptyObject written => [0x7b, 0x7d].drop written
  | .objectValue items firstBracket =>
    (if firstBracket then [] else [0x7b]) ++ Value.textMembers opts doubleToChars items
  | .commaSpace written => (ascii ", ").drop written

/-- What a stack has still to write. -/
def pendingText (stack : List Entry) : Bytes := stack.flatMap (Entry.pending opts doubleToChars)

end

mutual
/-- No double is in the value. -/
def Value.NoDouble : Value → Prop
  | .double _ => False
  | .array a => Value.NoDoubleElements a
  | .object o => Value.NoDoubleMembers o
  | _ => True

def Value.NoDoubleElements : List Value → Prop
  | [] => True
  | v :: vs => Value.NoDouble v ∧ Value.NoDoubleElements vs

def Value.NoDoubleMembers : Members → Prop
  | [] => True
  | (_, v) :: o => Value.NoDouble v ∧ Value.NoDoubleMembers o
end

/-- An escape of which `escapeLen` bytes are left, if it is begun. -/
def EscapeOk (opts : SerializeOptions) (s : Bytes) (escapeLen : Nat) : Prop :=
  escapeLen = 0 ∨ ∃ ch t, s = ch :: t ∧ escapeLen < (escape opts ch).length

/-- An entry that has something to write, and a position in it that the serializer can have. -/
def Entry.Ok (opts : SerializeOptions) : Entry → Prop
  | .nullValue written => written < 4
  | .boolValue b written => written < if b then 4 else 5
  | .int64Value text => text ≠ []
  | .uint64Value text => text ≠ []
  | .doubleValue _ => False
  | .stringValue s quotes escapeLen => quotes ≤ 1 ∧ EscapeOk opts s escapeLen
  | .key s escapeLen quotes => quotes ≤ 3 ∧ EscapeOk opts s escapeLen ∧ (2 ≤ quotes → s = [])
  | .emptyArray written => written < 2
  | .arrayValue items firstBracket => Value.NoDoubleElements items ∧ (firstBracket = false → items ≠ [])
  | .emptyObject written => written < 2
  | .objectValue items firstBracket => Value.NoDoubleMembers items ∧ (firstBracket = false → items ≠ [])
  | .commaSpace written => written < 2

/-- The entries that write when it is their turn: all but an array or an object between two of its values. -/
def Entry.Writes : Entry → Prop
  | .arrayValue (_ :: _) true => False
  | .objectValue (_ :: _) true => False
  | _ => True

/-! ## Values without doubles -/

/-- A value of null, booleans, integers, strings in UTF-8, arrays and objects with distinct keys. -/
inductive Value.Plain : Value → Prop where
  | null : Value.Plain .null
  | bool (b : Bool) : Value.Plain (.bool b)
  | int64 (i : Int64) : Value.Plain (.int64 i)
  | uint64 (u : UInt64) : Value.Plain (.uint64 u)
  | string (s : List Char) : Value.Plain (.string (utf8 s))
  | array {a : List Value} (h : ∀ v ∈ a, Value.Plain v) : Value.Plain (.array a)
  | object {o : Members} (hkeys : ∀ kv ∈ o, ∃ s, kv.1 = utf8 s) (hnodup : (o.map Prod.fst).Nodup)
      (h : ∀ kv ∈ o, Value.Plain kv.2) : Value.Plain (.object o)

def Value.IsInteger : Value → Prop
  | .int64 _ => True
  | .uint64 _ => True
  | _ => False

mutual
/-- The strings and the keys in a value. -/
def Value.strings : Value → List Bytes
  | .string s => [s]
  | .array a => Value.stringsOfElements a
  | .object o => Value.stringsOfMembers o
  | _ => []

def Value.stringsOfElements : List Value → List Bytes
  | [] => []
  | v :: vs => Value.strings v ++ Value.stringsOfElements vs

def Value.stringsOfMembers : Members → List Bytes
  | [] => []
  | (k, v) :: o => k :: (Value.strings v ++ Value.stringsOfMembers o)
end

/-! ## Control characters -/

/-- The control characters that are written with one hexadecimal digit other than zero. -/
def misplaced : List UInt8 := [0x01, 0x02, 0x03, 0x04, 0x05, 0x06, 0x07, 0x0b, 0x0e, 0x0f]

/-- No character of the string is written as another one. -/
def Legible (s : Bytes) : Prop := ∀ b ∈ s, b ∉ misplaced

instance (s : Bytes) : Decidable (Legible s) := List.decidableBAll _ _

def Value.Legible (v : Value) : Prop := ∀ s ∈ v.strings, Json.Legible s

instance (v : Value) : Decidable v.Legible := List.decidableBAll _ _

/-- The character that is read back for `c`. -/
def charReadBack (c : Char) : Char :=
  if c.toNat < 0x10 ∧ UInt8.ofNat c.toNat ∈ misplaced then Char.ofNat (c.toNat * 0x10) else c

open Classical in
/-- The characters of a string in UTF-8. -/
noncomputable def chars (s : Bytes) : List Char := if h : ∃ cs, s = utf8 cs then h.choose else []

theorem utf8_chars (cs : List Char) : utf8 (chars (utf8 cs)) = utf8 cs := by
  have h : ∃ cs', utf8 cs = utf8 cs' := ⟨cs, rfl⟩
  rw [chars, dif_pos h]
  exact h.choose_spec.symm

noncomputable def stringReadBack (s : Bytes) : List Char := (chars s).map charReadBack

mutual
/-- What the text of a value denotes. -/
noncomputable def Value.readBack : Value → Meaning
  | .null => .null
  | .bool b => .bool b
  | .int64 i => .int i.toInt
  | .uint64 u => .int u.toNat
  | .double _ => .null
  | .string s => .string (stringReadBack s)
  | .array a => .array (Value.elementsReadBack a)
  | .object o => .object (Value.membersReadBack o)

noncomputable def Value.elementsReadBack : List Value → List Meaning
  | [] => []
  | v :: vs => Value.readBack v :: Value.elementsReadBack vs

noncomputable def Value.membersReadBack : Members → List (List Char × Meaning)
  | [] => []
  | (k, v) :: o => (stringReadBack k, Value.readBack v) :: Value.membersReadBack o
end

end Rad.Json
