import Rad.Json.Value
import Rad.Text.Utf

/-!
# The parser (include/rad/json/basic_parser.h, include/rad/json/parser.h, src/json/json_parser.cpp)

The handler is the one that builds a value, so the limits on sizes are never reached and no call of it fails. The loops
over the code points of a piece of text are one loop here: `parse_document`, `parse_const_text`, `parse_number`,
`parse_string`, `parse_key`, `parse_array` and `parse_object` take one turn of their loop, and what they go on with is
what `write_some` comes back to them with. The view that `parse_json_string` has collected since it was called is `seen`.

The buffers of the code are kept as the part of them that is read again: the digits of an escape that is not over are in
its state, and the bytes of a code point that is not over are the reader.
-/

namespace Rad.Json

inductive ErrorCode where
  | badSyntax
  | extraData
  | incomplete
  | illegalLeadingSurrogate
  | expectedHexDigit
  | expectedUtf16Escape
  | numberTooLarge
  | inputError
  | invalidEscape
  | errc (e : Errc)
  /-- The behaviour of the code is not defined. -/
  | undefined
  deriving DecidableEq

/-! ## The UTF-8 reader -/

/-- What `utf8_reader::decode` comes to: the bytes of the code point in `raw`, those that were cached included. -/
structure Decoded where
  reader : Bytes
  rest : Bytes
  result : Except Errc Nat
  raw : Bytes

/-- The loop of `decode_cached` over the bytes that are missing, and what is done behind it. -/
def cacheBytes (expected : Nat) (cached part rest : Bytes) : Decoded :=
  let conts := part.takeWhile isUtf8ContinuationByte
  if conts.length < part.length then ⟨cached ++ conts, rest, .error .illegalByteSequence, []⟩
  else if cached.length + part.length = expected then ⟨[], rest, (utf8Decode (cached ++ part)).1, cached ++ part⟩
  else ⟨cached ++ part, rest, .error .noBufferSpace, []⟩

def decodeCached (cached : Bytes) (jtext : Bytes) : Decoded :=
  let expected := utf8SequenceSize (cached.headD 0)
  let part := jtext.take (expected - cached.length)
  cacheBytes expected cached part (jtext.drop part.length)

/-- `utf8_reader::decode`, for a text that is not empty. -/
def decode (cached : Bytes) (jtext : Bytes) : Decoded :=
  if cached ≠ [] then decodeCached cached jtext
  else
    match utf8Decode jtext with
    | (.error .noBufferSpace, _) => ⟨jtext, [], .error .noBufferSpace, []⟩
    | (result, rest) => ⟨[], rest, result, jtext.take (jtext.length - rest.length)⟩

/-! ## Escapes -/

/-- `escape_state` with the digits that are read: those of the sequence in progress, of which there are less than four,
and in `hexBuff` those of the leading surrogate. -/
inductive EscapeState where
  | none
  | wantEscape
  | wantHexDigits (hexBuff : Option Bytes) (digits : Bytes)
  | wantReverseSolidus (hexBuff : Bytes)
  | wantU (hexBuff : Bytes)
  deriving DecidableEq

def isHexDigit (cp : Nat) : Bool :=
  (0x30 ≤ cp && cp ≤ 0x39) || (0x41 ≤ cp && cp ≤ 0x46) || (0x61 ≤ cp && cp ≤ 0x66)

def hexValue (b : UInt8) : Nat :=
  if b ≤ 0x39 then b.toNat - 0x30 else if b ≤ 0x46 then b.toNat - 0x41 + 10 else b.toNat - 0x61 + 10

/-- `std::from_chars` of hexadecimal digits. -/
def fromHex (digits : Bytes) : Nat := digits.foldl (fun n d => n * 16 + hexValue d) 0

/-- Empty for a surrogate. -/
def encodeUnicodeSequence (hexBuff : Bytes) : Bytes :=
  let cp := fromHex hexBuff
  if isValidCodepoint cp then utf8Encode cp else []

def encodeUtf16Pairs (hexBuff hexBuff2 : Bytes) : Except ErrorCode Bytes :=
  match utf16DecodePair (fromHex hexBuff) (fromHex hexBuff2) with
  | .error _ => .error .illegalLeadingSurrogate
  | .ok cp => .ok (utf8Encode cp)

/-- The characters that may stand behind a reverse solidus, but for `u`, with what they stand for. -/
def unescapedChar (cp : Nat) : Option UInt8 :=
  if cp = 0x22 ∨ cp = 0x5c ∨ cp = 0x2f then some (UInt8.ofNat cp)
  else if cp = 0x62 then some 0x08
  else if cp = 0x66 then some 0x0c
  else if cp = 0x6e then some 0x0a
  else if cp = 0x72 then some 0x0d
  else if cp = 0x74 then some 0x09
  else none

/-- `parse_json_escape_sequence`: the state behind the code point, and what it reports. -/
def parseJsonEscapeSequence (cp : Nat) (esc : EscapeState) : EscapeState × Except ErrorCode Bytes :=
  match esc with
  | .wantU hexBuff =>
    if cp ≠ 0x75 then (esc, .error .expectedUtf16Escape) else (.wantHexDigits (some hexBuff) [], .ok [])
  | .wantEscape =>
    if cp = 0x75 then (.wantHexDigits .none [], .ok [])
    else
      match unescapedChar cp with
      | .none => (esc, .error .invalidEscape)
      | some ch => (.none, .ok [ch])
  | .wantHexDigits hexBuff digits =>
    if !isHexDigit cp then (esc, .error .expectedHexDigit)
    else
      let digits := digits ++ [UInt8.ofNat cp]
      if digits.length < 4 then (.wantHexDigits hexBuff digits, .ok [])
      else
        match hexBuff with
        | .none =>
          let encodedSeq := encodeUnicodeSequence digits
          -- look for the other pair
          if encodedSeq = [] then (.wantReverseSolidus digits, .ok []) else (.none, .ok encodedSeq)
        | some hexBuff => (.none, encodeUtf16Pairs hexBuff digits)
  | .wantReverseSolidus hexBuff =>
    if cp ≠ 0x5c then (esc, .error .illegalLeadingSurrogate) else (.wantU hexBuff, .ok [])
  | .none => (esc, .ok [])

/-! ## Numbers -/

def isDigit (b : UInt8) : Bool := 0x30 ≤ b && b ≤ 0x39

/-- The number that decimal digits stand for. -/
def fromDigits (digits : Bytes) : Nat := digits.foldl (fun n d => n * 10 + (d.toNat - 0x30)) 0

def toUint64 (text : Bytes) : Option UInt64 :=
  if text ≠ [] ∧ text.all isDigit ∧ fromDigits text < 2 ^ 64 then some (UInt64.ofNat (fromDigits text)) else none

def toInt64 (text : Bytes) : Option Int64 :=
  match text with
  | 0x2d :: digits =>
    if digits ≠ [] ∧ digits.all isDigit ∧ fromDigits digits ≤ 2 ^ 63 then some (Int64.ofInt (-fromDigits digits)) else none
  | digits =>
    if digits ≠ [] ∧ digits.all isDigit ∧ fromDigits digits < 2 ^ 63 then some (Int64.ofInt (fromDigits digits)) else none

section

/- `std::from_chars` of a double in the scientific or the fixed format, with the errors that `parse_json_double` makes of
it. -/
variable (toDouble : Bool → Bytes → Except ErrorCode UInt64)

/-- `parse_json_number`. The type of the conditional operator in it is the unsigned one, also for `-0`. -/
def parseJsonNumber (pointPos ePos : Nat) (hasMinus : Bool) (text : Bytes) : Except ErrorCode Value :=
  let start := if hasMinus then 1 else 0
  let next := text.getD (start + 1) 0
  if text.getD start 0 = 0x30 ∧ text.length = start + 1 then .ok (.uint64 0)
  else if text.getD start 0 = 0x30 ∧ next ≠ 0x2e ∧ next ≠ 0x65 ∧ next ≠ 0x45 then .error .badSyntax
  else
    let mustParseAsDouble := pointPos ≠ 0 ∨ ePos ≠ 0 ∨ 20 < text.length
    let integer : Option Value :=
      if mustParseAsDouble then none
      else if hasMinus then (toInt64 text).map .int64
      else (toUint64 text).map .uint64
    match integer with
    | some v => .ok v
    | none => (toDouble (ePos ≠ 0) text).map .double

/-! ## The state of the parser -/

inductive ArrayStep where
  | mayParseValue
  | mustParseValue
  | parseSep
  deriving DecidableEq

inductive ObjectStep where
  | mayParseKey
  | mustParseKey
  | parseValue
  | parseSep
  deriving DecidableEq

inductive Item where
  | document (n : Nat)
  | null (parsed : Nat)
  | bool (b : Bool) (parsed : Nat)
  | number (pointPos ePos : Nat) (hasMinus : Bool)
  | string
  | key (parsedName : Bool)
  | array (n : Nat) (step : ArrayStep)
  | object (n : Nat) (step : ObjectStep)
  deriving DecidableEq

inductive ParserState where
  | notStarted
  | parsing
  | done
  | failed
  deriving DecidableEq

/-- `basic_parser<dom_handler>`. -/
structure Parser where
  handler : ValueStack := {}
  /-- The back of the stack comes first. -/
  stack : List Item := []
  state : ParserState := .notStarted
  numberText : Bytes := []
  esc : EscapeState := .none
  reader : Bytes := []
  lastEc : Option ErrorCode := none

def isWhiteSpace (cp : Nat) : Bool := cp == 0x20 || cp == 0x09 || cp == 0x0a || cp == 0x0d

/-- What a turn of a loop comes to: `rest` is what it does not consume. -/
structure Turn where
  parser : Parser
  seen : Bytes
  rest : Bytes
  ec : Option ErrorCode

/-- `try_parse_value`, on the parser with the item that finds the value. -/
def tryParseValue (p : Parser) (cp : Nat) : Option Parser :=
  if cp = 0x6e then some { p with stack := .null 1 :: p.stack }
  else if cp = 0x74 ∨ cp = 0x66 then some { p with stack := .bool (cp = 0x74) 1 :: p.stack }
  else if cp = 0x22 then some { p with esc := .none, stack := .string :: p.stack }
  else if cp = 0x2d ∨ (0x30 ≤ cp ∧ cp ≤ 0x39) then
    some { p with numberText := p.numberText ++ [UInt8.ofNat cp], stack := .number 0 0 (cp = 0x2d) :: p.stack }
  else if cp = 0x5b then some { p with stack := .array 0 .mayParseValue :: p.stack }
  else if cp = 0x7b then some { p with stack := .object 0 .mayParseKey :: p.stack }
  else none

/-! ## Turns

The parser has on its stack the item that takes the turn; `stack` is what is below it. -/

/-- What a code point comes to: whether it is consumed, and the error. -/
structure Act where
  parser : Parser
  consumed : Bool
  ec : Option ErrorCode

namespace Act

def accept (p : Parser) : Act := ⟨p, true, none⟩

def refuse (p : Parser) : Act := ⟨p, false, some .badSyntax⟩

end Act

/-- The turn of a loop that decodes a code point with the reader and accepts only ASCII characters. -/
def withCodepoint (p : Parser) (jtext : Bytes) (act : Parser → Nat → Act) : Turn :=
  let d := decode p.reader jtext
  let p := { p with reader := d.reader }
  match d.result with
  | .error _ => ⟨p, [], d.rest, some .inputError⟩
  | .ok cp =>
    let a := act p cp
    ⟨a.parser, [], if a.consumed then d.rest else jtext, a.ec⟩

/-- `parse_document`: the text is decoded without the reader. -/
def parseDocument (p : Parser) (n : Nat) (stack : List Item) (jtext : Bytes) : Turn :=
  if 0 < n then ⟨{ p with stack, state := .done }, [], jtext, none⟩
  else
    match utf8Decode jtext with
    | (.error _, rest) => ⟨p, [], rest, some .inputError⟩
    | (.ok cp, rest) =>
      if isWhiteSpace cp then ⟨p, [], rest, none⟩
      else
        match tryParseValue { p with stack := .document (n + 1) :: stack } cp with
        | some p => ⟨p, [], rest, none⟩
        | none => ⟨p, [], jtext, some .badSyntax⟩

/-- `parse_const_text`, with `parse_null` and `parse_bool`: a text that is there as a whole is the value `v`. -/
def parseConstText (desired : Bytes) (v : Value) (item : Nat → Item) (parsed : Nat) (p : Parser) (stack : List Item)
    (jtext : Bytes) : Turn :=
  match jtext with
  | [] => ⟨p, [], [], none⟩
  | b :: rest =>
    if desired[parsed]? ≠ some b then ⟨p, [], jtext, some .badSyntax⟩
    else if parsed + 1 = desired.length then ⟨{ p with handler := p.handler.pushValue v, stack }, [], rest, none⟩
    else ⟨{ p with stack := item (parsed + 1) :: stack }, [], rest, none⟩

def validateAndReportNumber (p : Parser) (pointPos ePos : Nat) (hasMinus : Bool) (stack : List Item) :
    Parser × Option ErrorCode :=
  match parseJsonNumber toDouble pointPos ePos hasMinus p.numberText with
  | .error e => ({ p with numberText := [], stack }, some e)
  | .ok v => ({ p with handler := p.handler.pushValue v, numberText := [], stack }, none)

def endsInExponent (text : Bytes) : Bool := text.getLast? = some 0x65 || text.getLast? = some 0x45

def endsInDigit (text : Bytes) : Bool := text.getLast?.any isDigit

/-- The loop of `parse_number`. -/
def numberCodepoint (pointPos ePos : Nat) (hasMinus : Bool) (stack : List Item) (p : Parser) (cp : Nat) : Act :=
  let text := p.numberText
  let take (item : Item) := Act.accept { p with numberText := text ++ [UInt8.ofNat cp], stack := item :: stack }
  if cp = 0x2d then
    if text = [] ∨ endsInExponent text then take (.number pointPos ePos (text = [])) else .refuse p
  else if cp = 0x2b then
    if endsInExponent text then take (.number pointPos ePos hasMinus) else .refuse p
  else if cp = 0x2e then
    if text = [] ∨ pointPos ≠ 0 ∨ ePos ≠ 0 then .refuse p else take (.number (text.length % 2 ^ 32) ePos hasMinus)
  else if cp = 0x65 ∨ cp = 0x45 then
    if text = [] ∨ ePos ≠ 0 ∨ text.getLast? = some 0x2e ∨ text.getLast? = some 0x2d then .refuse p
    else take (.number pointPos (text.length % 2 ^ 32) hasMinus)
  else if 0x30 ≤ cp ∧ cp ≤ 0x39 then take (.number pointPos ePos hasMinus)
  else if endsInDigit text then
    -- don't consume the non digit character
    let r := validateAndReportNumber toDouble p pointPos ePos hasMinus stack
    ⟨r.1, false, r.2⟩
  else .refuse p

def parseNumber (p : Parser) (pointPos ePos : Nat) (hasMinus : Bool) (stack : List Item) (jtext : Bytes) : Turn :=
  withCodepoint p jtext (numberCodepoint toDouble pointPos ePos hasMinus stack)

/-- What a turn of the loop of `parse_json_string` comes to: it returns with an error, with a part of the string, or with
the last part, or it goes on with a view. -/
inductive StringTurn where
  | failed (ec : ErrorCode)
  | part (s : Bytes)
  | finished (s : Bytes)
  | goesOn (seen : Bytes)

/-- The loop of `parse_json_string` behind the decoder. -/
def stringCodepoint (cachedBefore : Bool) (raw seen : Bytes) (esc : EscapeState) (cp : Nat) : EscapeState × StringTurn :=
  if esc ≠ .none then
    match parseJsonEscapeSequence cp esc with
    | (esc, .error e) => (esc, .failed e)
    | (esc, .ok result) => (esc, if result = [] then .goesOn [] else .part result)
  else if cachedBefore then (esc, .part raw)
  -- report existing parsed string before the reverse solidus
  else if cp = 0x5c then (.wantEscape, if seen = [] then .goesOn [] else .part seen)
  else if cp = 0x22 then (esc, .finished seen)
  else (esc, .goesOn (seen ++ raw))

/-- The loops of `parse_string` and of `parse_key` behind `parse_json_string`: `finish` is what the last part does, and
`above` is the stack behind it. -/
def StringTurn.deliver (finish : ValueStack → Bytes → ValueStack) (above : List Item) (p : Parser) (seen rest : Bytes) :
    StringTurn → Turn
  | .failed ec => ⟨p, seen, rest, some ec⟩
  | .part s => ⟨{ p with handler := p.handler.pushChars s }, [], rest, none⟩
  | .finished s => ⟨{ p with handler := finish p.handler s, stack := above }, [], rest, none⟩
  | .goesOn seen => ⟨p, seen, rest, none⟩

/-- `parse_string`, and `parse_key` before the name is parsed. -/
def parseStringWith (finish : ValueStack → Bytes → ValueStack) (above : List Item) (p : Parser) (seen jtext : Bytes) :
    Turn :=
  let d := decode p.reader jtext
  match d.result with
  | .error e => ⟨{ p with reader := d.reader }, seen, d.rest, some (.errc e)⟩
  | .ok cp =>
    let r := stringCodepoint (p.reader ≠ []) d.raw seen p.esc cp
    r.2.deliver finish above { p with reader := d.reader, esc := r.1 } seen d.rest

def parseString (p : Parser) (stack : List Item) (seen jtext : Bytes) : Turn :=
  parseStringWith ValueStack.pushString stack p seen jtext

/-- The loop of `parse_key` behind the name. -/
def colonCodepoint (stack : List Item) (p : Parser) (cp : Nat) : Act :=
  if isWhiteSpace cp then .accept p
  else if cp = 0x3a then .accept { p with stack }
  else .refuse p

def parseKey (p : Parser) (parsedName : Bool) (stack : List Item) (seen jtext : Bytes) : Turn :=
  if parsedName then withCodepoint p jtext (colonCodepoint stack)
  else parseStringWith ValueStack.pushKey (.key true :: stack) p seen jtext

/-- The loop of `parse_array`. -/
def arrayCodepoint (n : Nat) (step : ArrayStep) (stack : List Item) (p : Parser) (cp : Nat) : Act :=
  if cp = 0x5d then
    if step = .mustParseValue then .refuse p
    else
      match p.handler.pushArray n with
      | some handler => .accept { p with handler, stack }
      | none => ⟨{ p with stack }, true, some .undefined⟩
  else if isWhiteSpace cp then .accept p
  else if cp = 0x2c then
    if step = .parseSep then .accept { p with stack := .array n .mustParseValue :: stack } else .refuse p
  else if step = .parseSep then .refuse p
  else
    match tryParseValue { p with stack := .array (n + 1) .parseSep :: stack } cp with
    | some p => .accept p
    | none => .refuse { p with stack := .array n .parseSep :: stack }

def parseArray (p : Parser) (n : Nat) (step : ArrayStep) (stack : List Item) (jtext : Bytes) : Turn :=
  withCodepoint p jtext (arrayCodepoint n step stack)

/-- The loop of `parse_object`. -/
def objectCodepoint (n : Nat) (step : ObjectStep) (stack : List Item) (p : Parser) (cp : Nat) : Act :=
  if cp = 0x7d then
    if step = .parseValue ∨ step = .mustParseKey then .refuse p
    else
      match p.handler.pushObject n with
      | some handler => .accept { p with handler, stack }
      | none => ⟨{ p with stack }, true, some .undefined⟩
  else if isWhiteSpace cp then .accept p
  else if cp = 0x2c then
    if step = .parseSep then .accept { p with stack := .object n .mustParseKey :: stack } else .refuse p
  else if cp = 0x22 then
    match step with
    | .parseSep => .refuse p
    | .parseValue => .accept { p with stack := .string :: .object n .parseSep :: stack }
    | _ => .accept { p with stack := .key false :: .object (n + 1) .parseValue :: stack }
  else if step ≠ .parseValue then .refuse p
  else
    match tryParseValue { p with stack := .object n .parseSep :: stack } cp with
    | some p => .accept p
    | none => .refuse { p with stack := .object (n - 1) .parseSep :: stack }

def parseObject (p : Parser) (n : Nat) (step : ObjectStep) (stack : List Item) (jtext : Bytes) : Turn :=
  withCodepoint p jtext (objectCodepoint n step stack)

/-! ## `write_some` and `finish` -/

/-- One turn of the loops, for a text that is not empty. -/
def turn (p : Parser) (seen jtext : Bytes) : Turn :=
  match p.stack with
  | [] => ⟨p, seen, jtext, some .undefined⟩
  | .document n :: stack => parseDocument p n stack jtext
  | .null parsed :: stack => parseConstText (ascii "null") .null .null parsed p stack jtext
  | .bool b parsed :: stack =>
    parseConstText (if b then ascii "true" else ascii "false") (.bool b) (.bool b) parsed p stack jtext
  | .number pointPos ePos hasMinus :: stack => parseNumber toDouble p pointPos ePos hasMinus stack jtext
  | .string :: stack => parseString p stack seen jtext
  | .key parsedName :: stack => parseKey p parsedName stack seen jtext
  | .array n step :: stack => parseArray p n step stack jtext
  | .object n step :: stack => parseObject p n step stack jtext

/-- The loops, as long as there is text, the document is not over and there is no error. -/
def turns (fuel : Nat) (p : Parser) (seen jtext : Bytes) : Turn :=
  match fuel with
  | 0 => ⟨p, seen, jtext, none⟩
  | fuel + 1 =>
    if jtext = [] ∨ p.state = .done then ⟨p, seen, jtext, none⟩
    else
      let t := turn toDouble p seen jtext
      if t.ec ≠ none then t else turns fuel t.parser t.seen t.rest

/-- What `parse_json_string` returns at the end of a text is a part of the string. Inside an escape there is nothing. -/
def Parser.flush (p : Parser) (seen : Bytes) : Parser := { p with handler := p.handler.pushChars seen }

/-- The loop of `write_some`. A turn that consumes nothing is the last one of a number or of the document. -/
def parseText (p : Parser) (jtext : Bytes) : Turn :=
  let t := turns toDouble (2 * jtext.length + 1) p [] jtext
  if t.ec = none then { t with parser := t.parser.flush t.seen, seen := [] } else t

def Parser.failWith (p : Parser) (ec : ErrorCode) : Parser := { p with state := .failed, lastEc := some ec }

/-- `finish`. -/
def Parser.finish (p : Parser) : Parser × Option ErrorCode :=
  match p.lastEc with
  | some ec => (p, some ec)
  | none =>
    if p.state = .done then (p, none)
    else if p.reader ≠ [] then (p.failWith .incomplete, some .incomplete)
    else
      match p.stack with
      | [.document n] =>
        if 0 < n then ({ p with stack := [], state := .done }, none) else (p.failWith .incomplete, some .incomplete)
      | [.number pointPos ePos hasMinus, .document n] =>
        if endsInDigit p.numberText then
          let r := validateAndReportNumber toDouble p pointPos ePos hasMinus [.document n]
          match r.2 with
          | some ec => (r.1.failWith ec, some ec)
          -- the number is popped twice, and the document is looked for on an empty stack
          | none => (r.1.failWith .undefined, some .undefined)
        else ({ p with state := .done }, none)
      | _ => (p.failWith .incomplete, some .incomplete)

/-- A parser that is not started has a document on its stack. -/
def Parser.start (p : Parser) : Parser :=
  if p.state = .notStarted then { p with state := .parsing, stack := .document 0 :: p.stack } else p

/-- `write_some`: the number of consumed bytes and the error. -/
def Parser.writeSome (p : Parser) (more : Bool) (data : Bytes) : Parser × Nat × Option ErrorCode :=
  match p.lastEc with
  | some ec => (p, 0, some ec)
  | none =>
    if p.state = .done then (p, 0, none)
    else if p.start.stack = [] then ({ p with state := .failed }, 0, none)
    else
      let t := parseText toDouble p.start data
      let waits : Bool := t.rest = [] && t.ec = some (.errc .noBufferSpace) && t.parser.reader ≠ []
      let ec := if waits then (if more then none else some .incomplete) else t.ec
      let r := if ec = none ∧ !more ∧ t.parser.state ≠ .done then t.parser.finish toDouble else (t.parser, ec)
      match r.2 with
      | some ec => (r.1.failWith ec, data.length - t.rest.length, some ec)
      | none => (r.1, data.length - (t.rest.dropWhile fun b => isWhiteSpace b.toNat).length, none)

def Parser.reset (p : Parser) : Parser :=
  { p with state := .notStarted, stack := [], numberText := [], lastEc := none }

def Parser.release (p : Parser) : Option (Value × Parser) :=
  p.handler.release.map fun r => (r.1, { p with handler := r.2 })

/-- `finish`, and `release` when it makes no error. -/
def Parser.outcome (p : Parser) : Except ErrorCode Value :=
  match p.finish toDouble with
  | (_, some ec) => .error ec
  | (p, none) =>
    match p.release with
    | some (v, _) => .ok v
    | none => .error .undefined

/-- What a `stream_parser` gives when it is fed the chunks one after the other. -/
def streamParse (chunks : List Bytes) : Except ErrorCode Value :=
  (chunks.foldl (fun (p : Parser) data => (p.writeSome toDouble true data).1) {}).outcome toDouble

/-- `json::parse`. -/
def parse (data : Bytes) : Except ErrorCode Value :=
  let r := ({} : Parser).writeSome toDouble false data
  match r.2.2 with
  | some ec => .error ec
  | none =>
    if r.2.1 ≠ data.length then .error .extraData
    else
      match r.1.release with
      | some (v, _) => .ok v
      | none => .error .undefined

end

end Rad.Json
