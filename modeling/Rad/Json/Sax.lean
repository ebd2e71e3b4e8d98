import Rad.Json.Parser
import Rad.Lib.Loop
import Rad.Lib.Run

/-!
# The parser with any handler (include/rad/json/basic_parser.h)

A handler has a state of its own, and each of its callbacks gives whether it returns true and the error code that it
sets. Error codes are not set where a callback is called. `calls` is what was called and what came of it, and `broken`
is whether the item stack was read or popped while it was empty; both are kept for what is said of the parser only.

The loops are taken in turns like those of the parser that builds a value.
-/

namespace Rad.Json.Sax

inductive Error where
  | json (e : ErrorCode)
  | arrayTooLarge
  | objectTooLarge
  | stringTooLarge
  | keyTooLarge
  | interrupted
  /-- an error code of the handler -/
  | handler (code : Nat)
  deriving DecidableEq

inductive Event where
  | documentBegin
  | documentEnd
  | arrayBegin
  | arrayEnd (n : Nat)
  | objectBegin
  | objectEnd (n : Nat)
  | stringPart (s : Bytes) (n : Nat)
  | string (s : Bytes) (n : Nat)
  | keyPart (s : Bytes) (n : Nat)
  | key (s : Bytes) (n : Nat)
  | numberPart (s : Bytes)
  | int64 (i : Int64) (text : Bytes)
  | uint64 (u : UInt64) (text : Bytes)
  | double (bits : UInt64) (text : Bytes)
  | bool (b : Bool)
  | null
  deriving DecidableEq

/-- What a callback returns, and the error code that it sets. -/
structure Answer where
  ok : Bool
  ec : Option Error
  deriving DecidableEq

structure Handler (σ : Type) where
  maxArraySize : Nat
  maxObjectSize : Nat
  maxStringSize : Nat
  maxKeySize : Nat
  on : σ → Event → σ × Answer

structure Call where
  event : Event
  answer : Answer
  deriving DecidableEq

/-- `basic_parser_item`. -/
inductive Item where
  | document (n : Nat)
  | null (parsed : Nat)
  | bool (b : Bool) (parsed : Nat)
  | number (pointPos ePos : Nat) (hasMinus : Bool)
  | string (n : Nat)
  | key (n : Nat) (parsedName : Bool)
  | array (n : Nat) (step : ArrayStep)
  | object (n : Nat) (step : ObjectStep)
  deriving DecidableEq

/-- `basic_parser<Handler>`. -/
structure Parser (σ : Type) where
  handler : σ
  /-- The back of the stack comes first. -/
  stack : List Item := []
  state : ParserState := .notStarted
  numberText : Bytes := []
  esc : EscapeState := .none
  reader : Bytes := []
  lastEc : Option Error := none
  calls : List Call := []
  broken : Bool := false

/-- `ensure_error_on_handler_false`. -/
def ensureErrorOnHandlerFalse (ec : Option Error) : Option Error := if ec.isSome then some .interrupted else ec

/-- What the error code is behind a callback. -/
def Answer.error (a : Answer) : Option Error := if a.ok then a.ec else ensureErrorOnHandlerFalse a.ec

/-- What a turn of a loop comes to: `rest` is what it does not consume. -/
structure Turn (σ : Type) where
  parser : Parser σ
  seen : Bytes
  rest : Bytes
  ec : Option Error

/-- What a code point comes to: whether it is consumed, and the error. -/
structure Act (σ : Type) where
  parser : Parser σ
  consumed : Bool
  ec : Option Error

section

variable {σ : Type} (h : Handler σ) (toDouble : Bool → Bytes → Except ErrorCode UInt64)

/-- A callback of the handler. -/
def Parser.call (p : Parser σ) (e : Event) : Parser σ × Answer :=
  let (handler, answer) := h.on p.handler e
  ({ p with handler, calls := p.calls ++ [⟨e, answer⟩] }, answer)

def Act.accept (p : Parser σ) : Act σ := ⟨p, true, none⟩

def Act.refuse (p : Parser σ) : Act σ := ⟨p, false, some (.json .badSyntax)⟩

/-- A callback behind which the code point is consumed. -/
def Act.report (p : Parser σ) (e : Event) : Act σ :=
  let (p, answer) := p.call h e
  ⟨p, true, answer.error⟩

/-- The beginning of an array or object in `try_parse_value`. -/
def beginContainer (p : Parser σ) (e : Event) (item : Item) : Parser σ × Bool × Option Error :=
  let (p, answer) := p.call h e
  if answer.ok then ({ p with stack := item :: p.stack }, true, answer.error) else (p, false, answer.error)

/-- `try_parse_value`: the parser, whether it returns true, and the error code, which it clears first. -/
def tryParseValue (p : Parser σ) (cp : Nat) (_ec : Option Error) : Parser σ × Bool × Option Error :=
  if cp = 0x6e then ({ p with stack := .null 1 :: p.stack }, true, none)
  else if cp = 0x74 ∨ cp = 0x66 then ({ p with stack := .bool (cp = 0x74) 1 :: p.stack }, true, none)
  else if cp = 0x22 then ({ p with esc := .none, stack := .string 0 :: p.stack }, true, none)
  else if cp = 0x2d ∨ (0x30 ≤ cp ∧ cp ≤ 0x39) then
    ({ p with numberText := p.numberText ++ [UInt8.ofNat cp], stack := .number 0 0 (cp = 0x2d) :: p.stack }, true, none)
  else if cp = 0x5b then beginContainer h p .arrayBegin (.array 0 .mayParseValue)
  else if cp = 0x7b then beginContainer h p .objectBegin (.object 0 .mayParseKey)
  else (p, false, some (.json .badSyntax))

/-- The turn of a loop that decodes a code point with the reader and accepts only ASCII characters. -/
def withCodepoint (p : Parser σ) (jtext : Bytes) (act : Parser σ → Nat → Act σ) : Turn σ :=
  let d := decode p.reader jtext
  let p := { p with reader := d.reader }
  match d.result with
  | .error _ => ⟨p, [], d.rest, some (.json .inputError)⟩
  | .ok cp =>
    let a := act p cp
    ⟨a.parser, [], if a.consumed then d.rest else jtext, a.ec⟩

/-- The end of the document in `parse_document`. -/
def endDocument (p : Parser σ) (stack : List Item) : Parser σ × Option Error :=
  let (p, answer) := Parser.call h { p with stack, state := .done } .documentEnd
  (if answer.ok then p else { p with state := .failed }, answer.error)

/-- `parse_document`: the text is decoded without the reader. -/
def parseDocument (p : Parser σ) (n : Nat) (stack : List Item) (jtext : Bytes) : Turn σ :=
  if 0 < n then
    let (p, ec) := endDocument h p stack
    ⟨p, [], jtext, ec⟩
  else
    match utf8Decode jtext with
    | (.error _, rest) => ⟨p, [], rest, some (.json .inputError)⟩
    | (.ok cp, rest) =>
      if isWhiteSpace cp then ⟨p, [], rest, none⟩
      else
        match tryParseValue h { p with stack := .document (n + 1) :: stack } cp none with
        | (p, true, ec) => ⟨p, [], rest, ec⟩
        | (p, false, _) => ⟨{ p with stack := .document n :: stack }, [], jtext, some (.json .badSyntax)⟩

/-- `parse_const_text`, with `parse_null` and `parse_bool`: behind a text that is there as a whole the value is
reported. -/
def parseConstText (desired : Bytes) (e : Event) (item : Nat → Item) (parsed : Nat) (p : Parser σ) (stack : List Item)
    (jtext : Bytes) : Turn σ :=
  match jtext with
  | [] => ⟨p, [], [], none⟩
  | b :: rest =>
    if desired[parsed]? ≠ some b then ⟨p, [], jtext, some (.json .badSyntax)⟩
    else if parsed + 1 = desired.length then
      let (p, answer) := Parser.call h { p with stack } e
      ⟨p, [], rest, answer.error⟩
    else ⟨{ p with stack := item (parsed + 1) :: stack }, [], rest, none⟩

/-- The event that a number makes. -/
def numberEvent (v : Value) (text : Bytes) : Event :=
  match v with
  | .int64 i => .int64 i text
  | .uint64 u => .uint64 u text
  | .double bits => .double bits text
  | _ => .null

/-- `validate_and_report_number`. The text is cleared and the item popped on every way out. -/
def validateAndReportNumber (p : Parser σ) (pointPos ePos : Nat) (hasMinus : Bool) (stack : List Item) :
    Parser σ × Option Error :=
  match parseJsonNumber toDouble pointPos ePos hasMinus p.numberText with
  | .error e => ({ p with numberText := [], stack }, some (.json e))
  | .ok v =>
    let (q, answer) := p.call h (numberEvent v p.numberText)
    ({ q with numberText := [], stack }, answer.error)

/-- The loop of `parse_number`. -/
def numberCodepoint (pointPos ePos : Nat) (hasMinus : Bool) (stack : List Item) (p : Parser σ) (cp : Nat) : Act σ :=
  let text := p.numberText
  let take (item : Item) := Act.accept { p with numberText := text ++ [UInt8.ofNat cp], stack := item :: stack }
  if cp = 0x2d then
    if text = [] ∨ endsInExponent text then take (.number pointPos ePos (text = [])) else .refuse p
  else if cp = 0x2b then
    if endsInExponent text then take (.number pointPos ePos hasMinus) else .refuse p
  else if cp = 0x2e then
    if text = [] ∨ pointPos ≠ 0 ∨ ePos ≠ 0 then .refuse p else take (.number (text.length % 2 ^ 32) ePos hasMinus)
  else if cp = 0x65 ∨ cp = 0x45 then
    if text = [] ∨ ePos ≠ 0 ∨ text.getLast? = some 0x2e ∨ text.getLast? = some 0x2d then .refuse p
    else take (.number pointPos (text.length % 2 ^ 32) hasMinus)
  else if 0x30 ≤ cp ∧ cp ≤ 0x39 then take (.number pointPos ePos hasMinus)
  else if endsInDigit text then
    -- don't consume the non digit character
    let r := validateAndReportNumber h toDouble p pointPos ePos hasMinus stack
    ⟨r.1, false, r.2⟩
  else .refuse p

/-- `seen` is what `parse_number` has consumed since it was called. -/
def parseNumber (p : Parser σ) (pointPos ePos : Nat) (hasMinus : Bool) (stack : List Item) (seen jtext : Bytes) :
    Turn σ :=
  let t := withCodepoint p jtext (numberCodepoint h toDouble pointPos ePos hasMinus stack)
  { t with seen := if t.parser.numberText = [] then [] else seen ++ jtext.take (jtext.length - t.rest.length) }

/-- What `parse_string` and `parse_key` have of their own: the limit and its error, the events of a part and of the last
part, and the item with the number of its bytes. -/
structure StringKind where
  limit : Nat
  tooLarge : Error
  part : Bytes → Nat → Event
  whole : Bytes → Nat → Event
  item : Nat → Item
  /-- The stack behind the last part. -/
  above : Nat → List Item → List Item

def stringKind : StringKind where
  limit := h.maxStringSize
  tooLarge := .stringTooLarge
  part := .stringPart
  whole := .string
  item := .string
  above _ stack := stack

def keyKind : StringKind where
  limit := h.maxKeySize
  tooLarge := .keyTooLarge
  part := .keyPart
  whole := .key
  item n := .key n false
  above n stack := .key n true :: stack

/-- What is done with a part that `parse_json_string` returns: it is counted, and reported unless there are too many
bytes or none. -/
def deliverPart (kind : StringKind) (p : Parser σ) (n : Nat) (stack : List Item) (part : Bytes) :
    Parser σ × Option Error :=
  let n := n + part.length
  let p := { p with stack := kind.item n :: stack }
  if n > kind.limit then (p, some kind.tooLarge)
  else if part = [] then (p, none)
  else
    let (p, answer) := p.call h (kind.part part n)
    (p, answer.error)

/-- What is done with the last part. -/
def deliverLast (kind : StringKind) (p : Parser σ) (n : Nat) (stack : List Item) (part : Bytes) :
    Parser σ × Option Error :=
  let n := n + part.length
  if n > kind.limit then ({ p with stack := kind.item n :: stack }, some kind.tooLarge)
  else
    let (p, answer) := Parser.call h { p with stack := kind.above n stack } (kind.whole part n)
    (p, answer.error)

/-- `parse_string`, and `parse_key` before the name is parsed. -/
def parseStringWith (kind : StringKind) (p : Parser σ) (n : Nat) (stack : List Item) (seen jtext : Bytes) : Turn σ :=
  let d := decode p.reader jtext
  match d.result with
  | .error e => ⟨{ p with reader := d.reader }, seen, d.rest, some (.json (.errc e))⟩
  | .ok cp =>
    let r := stringCodepoint (p.reader ≠ []) d.raw seen p.esc cp
    let p := { p with reader := d.reader, esc := r.1 }
    match r.2 with
    | .failed ec => ⟨p, seen, d.rest, some (.json ec)⟩
    | .part s =>
      let (p, ec) := deliverPart h kind p n stack s
      ⟨p, [], d.rest, ec⟩
    | .finished s =>
      let (p, ec) := deliverLast h kind p n stack s
      ⟨p, [], d.rest, ec⟩
    | .goesOn seen => ⟨p, seen, d.rest, none⟩

def parseString (p : Parser σ) (n : Nat) (stack : List Item) (seen jtext : Bytes) : Turn σ :=
  parseStringWith h (stringKind h) p n stack seen jtext

/-- The loop of `parse_key` behind the name. -/
def colonCodepoint (stack : List Item) (p : Parser σ) (cp : Nat) : Act σ :=
  if isWhiteSpace cp then .accept p
  else if cp = 0x3a then .accept { p with stack }
  else .refuse p

def parseKey (p : Parser σ) (n : Nat) (parsedName : Bool) (stack : List Item) (seen jtext : Bytes) : Turn σ :=
  if parsedName then withCodepoint p jtext (colonCodepoint stack)
  else parseStringWith h (keyKind h) p n stack seen jtext

/-- The loop of `parse_array`. -/
def arrayCodepoint (n : Nat) (step : ArrayStep) (stack : List Item) (p : Parser σ) (cp : Nat) : Act σ :=
  if cp = 0x5d then
    if step = .mustParseValue then .refuse p else .report h { p with stack } (.arrayEnd n)
  else if isWhiteSpace cp then .accept p
  else if cp = 0x2c then
    if step = .parseSep then .accept { p with stack := .array n .mustParseValue :: stack } else .refuse p
  else if step = .parseSep then .refuse p
  else
    let ec := if n + 1 > h.maxArraySize then some Error.arrayTooLarge else none
    match tryParseValue h { p with stack := .array (n + 1) .parseSep :: stack } cp ec with
    | (p, true, ec) => ⟨p, true, ec⟩
    | (p, false, ec) => ⟨{ p with stack := .array n .parseSep :: stack }, false, ec⟩

def parseArray (p : Parser σ) (n : Nat) (step : ArrayStep) (stack : List Item) (jtext : Bytes) : Turn σ :=
  withCodepoint p jtext (arrayCodepoint h n step stack)

/-- The loop of `parse_object`. -/
def objectCodepoint (n : Nat) (step : ObjectStep) (stack : List Item) (p : Parser σ) (cp : Nat) : Act σ :=
  if cp = 0x7d then
    if step = .parseValue ∨ step = .mustParseKey then .refuse p else .report h { p with stack } (.objectEnd n)
  else if isWhiteSpace cp then .accept p
  else if cp = 0x2c then
    if step = .parseSep then .accept { p with stack := .object n .mustParseKey :: stack } else .refuse p
  else if cp = 0x22 then
    match step with
    | .parseSep => .refuse p
    | .parseValue => .accept { p with stack := .string 0 :: .object n .parseSep :: stack }
    | _ =>
      let p := { p with stack := .object (n + 1) .parseValue :: stack }
      if n + 1 > h.maxObjectSize then ⟨p, false, some .objectTooLarge⟩
      else .accept { p with stack := .key 0 false :: p.stack }
  else if step ≠ .parseValue then .refuse p
  else
    match tryParseValue h { p with stack := .object n .parseSep :: stack } cp none with
    | (p, true, ec) => ⟨p, true, ec⟩
    | (p, false, ec) => ⟨{ p with stack := .object (n - 1) .parseSep :: stack }, false, ec⟩

def parseObject (p : Parser σ) (n : Nat) (step : ObjectStep) (stack : List Item) (jtext : Bytes) : Turn σ :=
  withCodepoint p jtext (objectCodepoint h n step stack)

/-! ## `write_some` and `finish` -/

/-- One turn of the loops, for a text that is not empty. -/
def turn (p : Parser σ) (seen jtext : Bytes) : Turn σ :=
  match p.stack with
  | [] => ⟨{ p with broken := true }, seen, jtext, none⟩
  | .document n :: stack => parseDocument h p n stack jtext
  | .null parsed :: stack => parseConstText h (ascii "null") .null .null parsed p stack jtext
  | .bool b parsed :: stack =>
    parseConstText h (if b then ascii "true" else ascii "false") (.bool b) (.bool b) parsed p stack jtext
  | .number pointPos ePos hasMinus :: stack => parseNumber h toDouble p pointPos ePos hasMinus stack seen jtext
  | .string n :: stack => parseString h p n stack seen jtext
  | .key n parsedName :: stack => parseKey h p n parsedName stack seen jtext
  | .array n step :: stack => parseArray h p n step stack jtext
  | .object n step :: stack => parseObject h p n step stack jtext

/-- A pass of the loop of `write_some`, with the loops in it: they end with the text, with the document and with an
error. Behind a broken stack nothing is said. -/
def pass (t : Turn σ) : Lib.Pass (Turn σ) (Turn σ) :=
  if t.rest = [] ∨ t.parser.state ≠ .parsing ∨ t.ec ≠ none ∨ t.parser.broken = true then .done t
  else .next (turn h toDouble t.parser t.seen t.rest)

/-- What the parts of a text that goes on are reported as at the end of it. -/
def flush (p : Parser σ) (seen : Bytes) : Parser σ × Option Error :=
  if seen = [] then (p, none)
  else
    match p.stack with
    | .string n :: stack => deliverPart h (stringKind h) p n stack seen
    | .key n false :: stack => deliverPart h (keyKind h) p n stack seen
    | .number _ _ _ :: _ =>
      let (p, answer) := p.call h (.numberPart seen)
      (p, answer.error)
    | _ => (p, none)

/-- The number of turns that a text takes at most. -/
def turnsFor (jtext : Bytes) : Nat := 8 * jtext.length + 9

/-- The loop of `write_some`. -/
def parseText (p : Parser σ) (jtext : Bytes) : Turn σ :=
  let t := (Lib.runLoop (pass h toDouble) (turnsFor jtext) ⟨p, [], jtext, none⟩).getD ⟨p, [], jtext, none⟩
  if t.ec = none ∧ t.rest = [] then
    let (p, ec) := flush h t.parser t.seen
    ⟨p, [], [], ec⟩
  else t

def Parser.failWith (p : Parser σ) (ec : Error) : Parser σ := { p with state := .failed, lastEc := some ec }

/-- `finish`. -/
def Parser.finish (p : Parser σ) : Parser σ × Option Error :=
  let incomplete := (p.failWith (.json .incomplete), some (Error.json .incomplete))
  -- what is done at the end
  let behind (r : Parser σ × Option Error) : Parser σ × Option Error :=
    match r.2 with
    | some ec => (r.1.failWith ec, some ec)
    | none => ({ r.1 with state := .done }, none)
  if p.lastEc.isSome then (p, p.lastEc)
  else if p.state = .done then (p, none)
  else if p.reader ≠ [] then incomplete
  else
    match p.stack with
    | [.document n] => if n = 0 then incomplete else behind (endDocument h p [])
    | [.number pointPos ePos hasMinus, item] =>
      if endsInDigit p.numberText then
        match validateAndReportNumber h toDouble p pointPos ePos hasMinus [item] with
        | (p, some ec) => behind (p, some ec)
        -- the number is popped already: the document is popped here, and looked for on an empty stack
        | (p, none) => ({ p with stack := [], broken := true }, none)
      else behind (p, none)
    | _ => incomplete

/-- What `write_some` does behind its loop. -/
def afterText (more : Bool) (data : Bytes) (t : Turn σ) : Parser σ × Nat × Option Error :=
  let waits : Bool := t.rest = [] && t.ec = some (.json (.errc .noBufferSpace)) && t.parser.reader ≠ []
  let ec := if waits then (if more then none else some (.json .incomplete)) else t.ec
  let r := if ec = none ∧ !more ∧ t.parser.state = .parsing then t.parser.finish h toDouble else (t.parser, ec)
  match r.2 with
  | some ec => (r.1.failWith ec, data.length - t.rest.length, some ec)
  | none => (r.1, data.length - (t.rest.dropWhile fun b => isWhiteSpace b.toNat).length, none)

/-- The parser with which `write_some` comes to its loop, and the error code there, unless it returns before. -/
def Parser.enter (p : Parser σ) : Except (Parser σ × Option Error) (Parser σ × Option Error) :=
  if p.lastEc.isSome then .error (p, p.lastEc)
  else if p.state = .done then .error (p, none)
  else if p.state = .notStarted then
    let (p, answer) := p.call h .documentBegin
    if answer.ok then .ok ({ p with state := .parsing, stack := .document 0 :: p.stack }, answer.ec)
    else .error ({ p with state := .failed }, answer.error)
  else if p.stack = [] then .error ({ p with state := .failed }, none)
  else .ok (p, none)

/-- `write_some`: the number of consumed bytes and the error. The loop is not entered with an error. -/
def Parser.writeSome (p : Parser σ) (more : Bool) (data : Bytes) : Parser σ × Nat × Option Error :=
  match p.enter h with
  | .error (p, ec) => (p, 0, ec)
  | .ok (p, none) => afterText h toDouble more data (parseText h toDouble p data)
  | .ok (p, some ec) => afterText h toDouble more data ⟨p, [], data, some ec⟩

inductive Action where
  | writeSome (more : Bool) (data : Bytes)
  | finish

/-- A call, with the error code that it gives. -/
def step (p : Parser σ) (a : Action) : Option (Parser σ × List (Option Error)) :=
  match a with
  | .writeSome more data =>
    let (p, _, ec) := p.writeSome h toDouble more data
    some (p, [ec])
  | .finish =>
    let (p, ec) := p.finish h toDouble
    some (p, [ec])

/-- The turns that the loop of a call comes to. -/
def InLoop (p : Parser σ) (a : Action) (t : Turn σ) : Prop :=
  ∃ more data q, a = .writeSome more data ∧ p.enter h = .ok (q, none) ∧
    Lib.Visits (pass h toDouble) ⟨q, [], data, none⟩ t

/-- The parsers on which a call runs `finish`. -/
def Finishes (p : Parser σ) (a : Action) (q : Parser σ) : Prop :=
  match a with
  | .finish => q = p
  | .writeSome more data => more = false ∧ ∃ q', p.enter h = .ok (q', none) ∧
      (parseText h toDouble q' data).ec = none ∧ q = (parseText h toDouble q' data).parser

/-- The root is a number that is not over where the input is, and `finish` finds no error in it. -/
structure RootNumber (q : Parser σ) (pointPos ePos : Nat) (hasMinus : Bool) (item : Item) : Prop where
  lastEc : q.lastEc = none
  state : q.state ≠ .done
  reader : q.reader = []
  stack : q.stack = [.number pointPos ePos hasMinus, item]
  number : endsInDigit q.numberText = true → ∃ v, parseJsonNumber toDouble pointPos ePos hasMinus q.numberText = .ok v ∧
    (h.on q.handler (numberEvent v q.numberText)).2.error = none

/-- A call ends the input inside a number that is the root. -/
def EndsInNumber (p : Parser σ) (a : Action) : Prop :=
  ∃ q pointPos ePos hasMinus item, Finishes h toDouble p a q ∧ RootNumber h toDouble q pointPos ePos hasMinus item

end

end Rad.Json.Sax
