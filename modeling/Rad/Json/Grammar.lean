import Rad.Json.Parser

/-!
# The grammar of JSON

What a JSON text denotes, by the grammar of RFC 8259, for numbers that are written as integers. Nothing here is taken
from the parser but what it is to read digits.
-/

namespace Rad.Json

/-- What a text denotes: integers and code points as such, and the members of an object as they come. -/
inductive Meaning where
  | null
  | bool (b : Bool)
  | int (i : Int)
  | string (s : List Char)
  | array (elements : List Meaning)
  | object (members : List (List Char × Meaning))

/-! ## Characters -/

def utf8 (s : List Char) : Bytes := s.flatMap String.utf8EncodeChar

/-- The characters with an escape of their own. -/
def shortEscapes : List (UInt8 × Char) :=
  [(0x22, '"'), (0x5c, '\\'), (0x2f, '/'), (0x62, '\x08'), (0x66, '\x0c'), (0x6e, '\n'), (0x72, '\r'), (0x74, '\t')]

/-- Four hexadecimal digits. -/
def IsHex4 (digits : Bytes) : Prop := digits.length = 4 ∧ ∀ d ∈ digits, isHexDigit d.toNat = true

instance (digits : Bytes) : Decidable (IsHex4 digits) := @instDecidableAnd _ _ _ (List.decidableBAll _ _)

/-- The text of a character inside a string. -/
inductive CharText : Bytes → Char → Prop where
  | unescaped {c : Char} (hcontrol : 0x20 ≤ c.toNat) (hquote : c ≠ '"') (hsolidus : c ≠ '\\') :
      CharText (String.utf8EncodeChar c) c
  | short {b : UInt8} {c : Char} (h : (b, c) ∈ shortEscapes) : CharText [0x5c, b] c
  | unicode {digits : Bytes} {c : Char} (hdigits : IsHex4 digits) (hc : fromHex digits = c.toNat) :
      CharText (0x5c :: 0x75 :: digits) c
  | pair {high low : Bytes} {c : Char} (hhigh : IsHex4 high) (hlow : IsHex4 low)
      (hrange : 0xd800 ≤ fromHex high ∧ fromHex high ≤ 0xdbff ∧ 0xdc00 ≤ fromHex low ∧ fromHex low ≤ 0xdfff)
      (hc : c.toNat = 0x10000 + (fromHex high - 0xd800) * 0x400 + (fromHex low - 0xdc00)) :
      CharText (0x5c :: 0x75 :: high ++ 0x5c :: 0x75 :: low) c

/-- The text of a string between its quotation marks. -/
inductive StringText : Bytes → List Char → Prop where
  | nil : StringText [] []
  | cons {t ts : Bytes} {c : Char} {s : List Char} (h : CharText t c) (hs : StringText ts s) :
      StringText (t ++ ts) (c :: s)

/-! ## Numbers -/

/-- Decimal digits without a leading zero. -/
def IsDecimal (digits : Bytes) : Prop :=
  digits ≠ [] ∧ (∀ d ∈ digits, isDigit d = true) ∧ (digits.head? = some 0x30 → digits = [0x30])

instance (digits : Bytes) : Decidable (IsDecimal digits) :=
  @instDecidableAnd _ _ _ (@instDecidableAnd _ _ (List.decidableBAll _ _) _)

inductive IntegerText : Bytes → Int → Prop where
  | plain {digits : Bytes} (h : IsDecimal digits) : IntegerText digits (fromDigits digits)
  | minus {digits : Bytes} (h : IsDecimal digits) : IntegerText (0x2d :: digits) (-fromDigits digits)

/-! ## Values -/

def WhiteSpace (t : Bytes) : Prop := ∀ b ∈ t, isWhiteSpace b.toNat = true

instance (t : Bytes) : Decidable (WhiteSpace t) := List.decidableBAll _ _

/-- The phrases of the grammar, with what they denote: a value, the values of an array and the members of an object, of
which there is one at least. -/
inductive Phrase where
  | value (j : Meaning)
  | elements (js : List Meaning)
  | members (ms : List (List Char × Meaning))

/-- The text of a phrase. The text of elements or of members goes to the closing bracket. -/
inductive Text : Phrase → Bytes → Prop where
  | null : Text (.value .null) (ascii "null")
  | true : Text (.value (.bool Bool.true)) (ascii "true")
  | false : Text (.value (.bool Bool.false)) (ascii "false")
  | int {t : Bytes} {i : Int} (h : IntegerText t i) (hrange : -2 ^ 63 ≤ i ∧ i < 2 ^ 64) : Text (.value (.int i)) t
  | string {t : Bytes} {s : List Char} (h : StringText t s) : Text (.value (.string s)) (0x22 :: (t ++ [0x22]))
  | emptyArray {ws : Bytes} (hws : WhiteSpace ws) : Text (.value (.array [])) (0x5b :: (ws ++ [0x5d]))
  | array {t : Bytes} {js : List Meaning} (h : Text (.elements js) t) : Text (.value (.array js)) (0x5b :: t)
  | emptyObject {ws : Bytes} (hws : WhiteSpace ws) : Text (.value (.object [])) (0x7b :: (ws ++ [0x7d]))
  | object {t : Bytes} {ms : List (List Char × Meaning)} (h : Text (.members ms) t) : Text (.value (.object ms)) (0x7b :: t)
  | lastElement {ws t ws' : Bytes} {j : Meaning} (hws : WhiteSpace ws) (h : Text (.value j) t) (hws' : WhiteSpace ws') :
      Text (.elements [j]) (ws ++ (t ++ (ws' ++ [0x5d])))
  | element {ws t ws' ts : Bytes} {j : Meaning} {js : List Meaning} (hws : WhiteSpace ws) (h : Text (.value j) t)
      (hws' : WhiteSpace ws') (hs : Text (.elements js) ts) :
      Text (.elements (j :: js)) (ws ++ (t ++ (ws' ++ 0x2c :: ts)))
  | lastMember {ws k ws' ws'' t wsEnd : Bytes} {key : List Char} {j : Meaning} (hws : WhiteSpace ws) (hkey : StringText k key)
      (hws' : WhiteSpace ws') (hws'' : WhiteSpace ws'') (h : Text (.value j) t) (hwsEnd : WhiteSpace wsEnd) :
      Text (.members [(key, j)])
        (ws ++ 0x22 :: (k ++ 0x22 :: (ws' ++ 0x3a :: (ws'' ++ (t ++ (wsEnd ++ [0x7d]))))))
  | member {ws k ws' ws'' t wsEnd ts : Bytes} {key : List Char} {j : Meaning} {ms : List (List Char × Meaning)}
      (hws : WhiteSpace ws) (hkey : StringText k key) (hws' : WhiteSpace ws') (hws'' : WhiteSpace ws'')
      (h : Text (.value j) t) (hwsEnd : WhiteSpace wsEnd) (hs : Text (.members ms) ts) :
      Text (.members ((key, j) :: ms))
        (ws ++ 0x22 :: (k ++ 0x22 :: (ws' ++ 0x3a :: (ws'' ++ (t ++ (wsEnd ++ 0x2c :: ts))))))

/-! ## What is denoted -/

/-- The value of the last member with a key. -/
def lastValue (ms : Members) (key : Bytes) : Option Value :=
  match ms with
  | [] => none
  | (k, v) :: ms => (lastValue ms key).or (if k = key then some v else none)

/-- One member for each key, where the first one with the key is, with the value of the last one. -/
def uniqueMembers (ms : Members) : Members :=
  match ms with
  | [] => []
  | (k, v) :: ms => (k, (lastValue ms k).getD v) :: (uniqueMembers ms).filter fun kv => kv.1 ≠ k

mutual
/-- The value that is denoted. An integer that is not negative is an unsigned one. -/
def Meaning.value : Meaning → Value
  | .null => .null
  | .bool b => .bool b
  | .int i => if 0 ≤ i then .uint64 (UInt64.ofNat i.toNat) else .int64 (Int64.ofInt i)
  | .string s => .string (utf8 s)
  | .array js => .array (Meaning.values js)
  | .object ms => .object (uniqueMembers (Meaning.memberValues ms))

def Meaning.values : List Meaning → List Value
  | [] => []
  | j :: js => Meaning.value j :: Meaning.values js

def Meaning.memberValues : List (List Char × Meaning) → Members
  | [] => []
  | (key, j) :: ms => (utf8 key, Meaning.value j) :: Meaning.memberValues ms
end

/-- The root is an object, an array, a string or a literal. -/
def Meaning.NotNumber : Meaning → Prop
  | .int _ => False
  | _ => True

/-- A JSON text: a value with white space around it. -/
def DocumentText (t : Bytes) (j : Meaning) : Prop :=
  ∃ ws t' ws', WhiteSpace ws ∧ Text (.value j) t' ∧ WhiteSpace ws' ∧ t = ws ++ (t' ++ ws')

end Rad.Json
