import Rad.Json.Value
import Rad.Lib.Loop

/-!
# The serializer (include/rad/json/serializer.h, src/json/json_serializer.cpp)

A call of `read_into` gives the stack behind it and the bytes that it writes. The views into the serialized value are
the lists of what is left of them, and the text of a number is in its entry: there is one such entry at a time, so
`temp_text_` is not written over while it is in use.
-/

namespace Rad.Json

structure SerializeOptions where
  allowInfinityAndNan : Bool := false
  escapeSolidus : Bool := false

/-! ## Texts -/

/-- `std::to_chars` of a signed number. -/
def toCharsInt (i : Int) : Bytes := if i < 0 then 0x2d :: toChars 10 i.natAbs else toChars 10 i.natAbs

def hexDigit (d : UInt8) : UInt8 := if d < 10 then 0x30 + d else 0x57 + d

/-- `std::to_chars` of a byte in base 16. -/
def toCharsHex (ch : UInt8) : Bytes := if ch < 16 then [hexDigit ch] else [hexDigit (ch / 16), hexDigit (ch % 16)]

def escapeChar (ch : UInt8) : UInt8 :=
  if ch = 0x09 then 0x74
  else if ch = 0x0d then 0x72
  else if ch = 0x0a then 0x6e
  else if ch = 0x08 then 0x62
  else if ch = 0x0c then 0x66
  else ch

/-- The characters that are written as a backslash and one character. -/
def hasShortEscape (opts : SerializeOptions) (ch : UInt8) : Bool :=
  ch == 0x5c || ch == 0x09 || ch == 0x0d || ch == 0x0a || ch == 0x08 || ch == 0x0c || ch == 0x22 ||
    (ch == 0x2f && opts.escapeSolidus)

/-- The string `hex_str`: the digits of the character are written over the last two zeros of `\u0000`, from the left. -/
def hexStr (ch : UInt8) : Bytes := ascii "\\u00" ++ toCharsHex ch ++ (ascii "00").drop (toCharsHex ch).length

/-! ## Entries -/

inductive Entry where
  | nullValue (written : Nat)
  | boolValue (b : Bool) (written : Nat)
  | int64Value (text : Bytes)
  | uint64Value (text : Bytes)
  | doubleValue (text : Bytes)
  | stringValue (s : Bytes) (quotes escapeLen : Nat)
  | key (s : Bytes) (escapeLen quotes : Nat)
  | emptyArray (written : Nat)
  | arrayValue (items : List Value) (firstBracket : Bool)
  | emptyObject (written : Nat)
  | objectValue (items : Members) (firstBracket : Bool)
  | commaSpace (written : Nat)

section

variable (doubleToChars : UInt64 → Option Bytes)

def makeDoubleValueEntry (opts : SerializeOptions) (d : UInt64) : Entry :=
  if isNan d then .doubleValue (if opts.allowInfinityAndNan then ascii "NaN" else ascii "0")
  else if isInf d then
    .doubleValue
      (if opts.allowInfinityAndNan then (if d >>> 63 = 1 then ascii "-" else []) ++ ascii "Infinity" else ascii "0")
  else .doubleValue ((doubleToChars d).getD (ascii "0"))

def makeItemTypeFromValue (opts : SerializeOptions) : Value → Entry
  | .null => .nullValue 0
  | .bool b => .boolValue b 0
  | .int64 i => .int64Value (toCharsInt i.toInt)
  | .uint64 u => .uint64Value (toChars 10 u.toNat)
  | .double d => makeDoubleValueEntry doubleToChars opts d
  | .string s => .stringValue s 0 0
  | .array [] => .emptyArray 0
  | .array a => .arrayValue a false
  | .object [] => .emptyObject 0
  | .object o => .objectValue o false

/-! ## Writing an entry

Each function gives what the entry leaves on the stack, the new back first, and the bytes that it writes. -/

/-- `write_piece_of_string` for an entry that counts what it has written. -/
def writePieceOfString (n written : Nat) (text : Bytes) (entry : Nat → Entry) : List Entry × Bytes :=
  let part := (text.drop written).take n
  (if written + part.length = text.length then [] else [entry (written + part.length)], part)

/-- `write_piece_of_string` for an entry that is a view of what it has not written. -/
def writePieceOfText (n : Nat) (text : Bytes) (entry : Bytes → Entry) : List Entry × Bytes :=
  let part := text.take n
  (if (text.drop part.length).isEmpty then [] else [entry (text.drop part.length)], part)

/-- `write_escaped_string`: the text and the escape length that are left, and what is written. -/
def writeEscapedString (opts : SerializeOptions) (text : Bytes) (escapeLen n : Nat) : (Bytes × Nat) × Bytes :=
  match text, n with
  | [], _ => (([], escapeLen), [])
  | ch :: text, 0 => ((ch :: text, escapeLen), [])
  | ch :: text, n + 1 =>
    if hasShortEscape opts ch then
      if escapeLen = 0 then
        match n with
        | 0 => ((ch :: text, 1), [0x5c])
        | n + 1 =>
          let r := writeEscapedString opts text 0 n
          (r.1, 0x5c :: escapeChar ch :: r.2)
      else
        let r := writeEscapedString opts text 0 n
        (r.1, escapeChar ch :: r.2)
    else if ch ≤ 0x1f then
      let escapeLen := if escapeLen = 0 then 6 else escapeLen
      let part := ((hexStr ch).drop (6 - escapeLen)).take (n + 1)
      -- an escape that is not over has filled the buffer, and the loop ends
      if escapeLen - part.length ≠ 0 then ((ch :: text, escapeLen - part.length), part)
      else
        let r := writeEscapedString opts text 0 (n + 1 - part.length)
        (r.1, part ++ r.2)
    else
      let r := writeEscapedString opts text escapeLen n
      (r.1, ch :: r.2)

def writeQuotedString (opts : SerializeOptions) (n : Nat) (s : Bytes) (quotes escapeLen : Nat) : List Entry × Bytes :=
  let openQuote := if quotes = 0 then [0x22] else []
  let quotes := if quotes = 0 then 1 else quotes
  let n := n - openQuote.length
  if n = 0 then ([.stringValue s quotes escapeLen], openQuote)
  else
    let r := writeEscapedString opts s escapeLen n
    let n := n - r.2.length
    if n = 0 then ([.stringValue r.1.1 quotes r.1.2], openQuote ++ r.2)
    else ([], openQuote ++ r.2 ++ [0x22])

/-- The symbols behind the characters of a key, from the closing quote on. -/
def keySymbols : Bytes := ascii "\": "

/-- `write_symbol` for the symbols behind the characters of a key, as many as fit. -/
def writeKeySymbols (n : Nat) (s : Bytes) (escapeLen quotes : Nat) : List Entry × Bytes :=
  writePieceOfString n (quotes - 1) keySymbols fun written => .key s escapeLen (written + 1)

def writeQuotedKey (opts : SerializeOptions) (n : Nat) (s : Bytes) (escapeLen quotes : Nat) : List Entry × Bytes :=
  let openQuote := if quotes = 0 then [0x22] else []
  let quotes := if quotes = 0 then 1 else quotes
  let n := n - openQuote.length
  let r := writeEscapedString opts s escapeLen n
  let n := n - r.2.length
  if n = 0 then ([.key r.1.1 r.1.2 quotes], openQuote ++ r.2)
  else
    let q := writeKeySymbols n r.1.1 r.1.2 quotes
    (q.1, openQuote ++ r.2 ++ q.2)

/-- The entries for the next element of an array, on top of the array itself. -/
def pushElement (opts : SerializeOptions) (v : Value) (rest : List Value) : List Entry :=
  makeItemTypeFromValue doubleToChars opts v ::
    ((if rest.isEmpty then [] else [.commaSpace 0]) ++ [.arrayValue rest true])

def serializeArray (opts : SerializeOptions) (items : List Value) (firstBracket : Bool) : List Entry × Bytes :=
  match items, firstBracket with
  | v :: rest, false => (pushElement doubleToChars opts v rest, ascii "[")
  -- an entry for an empty array is another one
  | [], false => ([.arrayValue [] true], ascii "[")
  | [], true => ([], ascii "]")
  | v :: rest, true => (pushElement doubleToChars opts v rest, [])

/-- The entries for the next member of an object, on top of the object itself. -/
def pushMember (opts : SerializeOptions) (kv : Bytes × Value) (rest : Members) : List Entry :=
  .key kv.1 0 0 :: makeItemTypeFromValue doubleToChars opts kv.2 ::
    ((if rest.isEmpty then [] else [.commaSpace 0]) ++ [.objectValue rest true])

def serializeObject (opts : SerializeOptions) (items : Members) (firstBracket : Bool) : List Entry × Bytes :=
  match items, firstBracket with
  | kv :: rest, false => (pushMember doubleToChars opts kv rest, [0x7b])
  -- an entry for an empty object is another one
  | [], false => ([.objectValue [] true], [0x7b])
  | [], true => ([], [0x7d])
  | kv :: rest, true => (pushMember doubleToChars opts kv rest, [])

/-- What `read_into` does for the entry at the back of the stack. -/
def writeEntry (opts : SerializeOptions) (n : Nat) : Entry → List Entry × Bytes
  | .nullValue written => writePieceOfString n written (ascii "null") .nullValue
  | .boolValue b written => writePieceOfString n written (if b then ascii "true" else ascii "false") (.boolValue b)
  | .int64Value text => writePieceOfText n text .int64Value
  | .uint64Value text => writePieceOfText n text .uint64Value
  | .doubleValue text => writePieceOfText n text .doubleValue
  | .stringValue s quotes escapeLen => writeQuotedString opts n s quotes escapeLen
  | .key s escapeLen quotes => writeQuotedKey opts n s escapeLen quotes
  | .commaSpace written => writePieceOfString n written (ascii ", ") .commaSpace
  | .emptyArray written => writePieceOfString n written (ascii "[]") .emptyArray
  | .emptyObject written => writePieceOfString n written [0x7b, 0x7d] .emptyObject
  | .arrayValue items firstBracket => serializeArray doubleToChars opts items firstBracket
  | .objectValue items firstBracket => serializeObject doubleToChars opts items firstBracket

/-! ## The serializer -/

structure Serializer where
  opts : SerializeOptions
  /-- The back of the stack comes first. -/
  stack : List Entry

def Serializer.done (s : Serializer) : Bool := s.stack.isEmpty

/-- A serializer behind `reset` with a value. -/
def Serializer.reset (opts : SerializeOptions) (v : Value) : Serializer :=
  ⟨opts, [makeItemTypeFromValue doubleToChars opts v]⟩

/-- The loop of `read_into`. -/
def readLoop (opts : SerializeOptions) (fuel n : Nat) (stack : List Entry) : List Entry × Bytes :=
  match fuel, n, stack with
  | 0, _, stack => (stack, [])
  | _ + 1, 0, stack => (stack, [])
  | _ + 1, _ + 1, [] => ([], [])
  | fuel + 1, n + 1, e :: stack =>
    let w := writeEntry doubleToChars opts (n + 1) e
    let r := readLoop opts fuel (n + 1 - w.2.length) (w.1 ++ stack)
    (r.1, w.2 ++ r.2)

/-- `serializer::read_into`. A pass that writes nothing is followed by one that writes, so the loop makes at most two
passes for each byte. -/
def Serializer.readInto (s : Serializer) (n : Nat) : Serializer × Bytes :=
  let r := readLoop doubleToChars s.opts (2 * n) n s.stack
  ({ s with stack := r.1 }, r.2)

/-- The pieces that calls of `read_into` with these buffer sizes write. -/
def Serializer.reads (s : Serializer) : List Nat → Serializer × List Bytes
  | [] => (s, [])
  | n :: ns =>
    let r := s.readInto doubleToChars n
    let q := Serializer.reads r.1 ns
    (q.1, r.2 :: q.2)

/-- One pass of the loop of `serialize_value`. -/
def serializePass (s : Serializer × Bytes) : Lib.Pass (Serializer × Bytes) Bytes :=
  if s.1.done then .done s.2
  else
    let r := s.1.readInto doubleToChars 4096
    .next (r.1, s.2 ++ r.2)

/-- `json::serialize` returns the text for the value. -/
def Serializes (opts : SerializeOptions) (v : Value) (text : Bytes) : Prop :=
  Lib.Returns (serializePass doubleToChars) (Serializer.reset doubleToChars opts v, []) text

end

end Rad.Json
