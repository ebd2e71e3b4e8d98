import Rad.Http.Fields
import Rad.Http.Lines
import Rad.Lib.Loop

/-!
# Parsers of messages (src/net/http/http_parser.cpp)

`request_incremental_parser` and `response_incremental_parser`. The two differ in the line that stands before the headers
and in the message that they write.
-/

namespace Rad.Http

open Lib

/-- `stage_`. -/
inductive MessageStage (κ : Type) where
  | line (ctx : κ)
  | headers (ctx : ParseHeadersContext)
  | done
  | error (lastEc : Error)
  deriving DecidableEq

/-- A parser of messages, with the message that it writes. -/
structure IncrementalParser (κ μ : Type) where
  out : μ
  stage : MessageStage κ
  deriving DecidableEq

namespace IncrementalParser

variable {κ μ : Type}

def done (p : IncrementalParser κ μ) : Bool :=
  match p.stage with
  | .done => true
  | _ => false

def lastError (p : IncrementalParser κ μ) : Option Error :=
  match p.stage with
  | .error e => some e
  | _ => none

def hasError (p : IncrementalParser κ μ) : Bool := p.lastError.isSome

end IncrementalParser

/-- What the parser of a kind of messages does with the line before the headers. -/
structure MessageFormat (κ μ : Type) where
  parseLine : κ → Bytes → Outcome κ UInt8 Error
  lineDone : κ → Bool
  /-- Moves what the line says to the message. -/
  takeLine : κ → μ → μ
  insertHeader : μ → Bytes → Bytes → μ

/-- What a call of `parse` works on: the parser, the text that is left, and `ec`. -/
structure ParseState (κ μ : Type) where
  parser : IncrementalParser κ μ
  input : Bytes
  ec : Option Error
  deriving DecidableEq

section

variable {κ μ : Type} (format : MessageFormat κ μ)

/-- One pass of the loop of `parse`. -/
def MessageFormat.pass (s : ParseState κ μ) : Pass (ParseState κ μ) (ParseState κ μ) :=
  if s.input = [] ∨ s.parser.done ∨ s.parser.hasError ∨ s.ec ≠ none then
    match s.ec with
    | some e => .done { s with parser := { s.parser with stage := .error e } }
    | none => .done s
  else
    match s.parser.stage with
    | .line ctx =>
      let o := format.parseLine ctx s.input
      let parser :=
        if format.lineDone o.state then { out := format.takeLine o.state s.parser.out, stage := .headers {} }
        else { s.parser with stage := .line o.state }
      .next { parser, input := o.rest, ec := o.error }
    | .headers ctx =>
      let o := parseHeaders (some format.insertHeader) ctx s.parser.out s.input
      let stage := if o.state.1.stage = .done then .done else .headers o.state.1
      .next { parser := { out := o.state.2, stage }, input := o.rest, ec := o.error }
    | .done => .next s
    | .error _ => .next s

/-- A call of `parse` on the text `input` returns, and leaves the parser and the text as in `r`. -/
def MessageFormat.Parses (parser : IncrementalParser κ μ) (input : Bytes) (r : ParseState κ μ) : Prop :=
  match parser.stage with
  | .done => r = ⟨parser, input, none⟩
  | .error e => r = ⟨parser, input, some e⟩
  | _ => Returns format.pass ⟨parser, input, none⟩ r

end

/-! ## Requests and responses -/

def requestFormat : MessageFormat ParseRequestLineContext Request where
  parseLine := parseRequestLine
  lineDone ctx := ctx.stage == .done
  takeLine ctx out := { out with method := ctx.method, version := ctx.version, target := ctx.target }
  insertHeader out name value := { out with headers := out.headers.insert name value }

def responseFormat : MessageFormat ParseStatusLineContext Response where
  parseLine := parseStatusLine
  lineDone ctx := ctx.stage == .done
  takeLine ctx out := { out with status := ctx.status, version := ctx.version, reason := ctx.reason }
  insertHeader out name value := { out with headers := out.headers.insert name value }

abbrev RequestIncrementalParser := IncrementalParser ParseRequestLineContext Request

abbrev ResponseIncrementalParser := IncrementalParser ParseStatusLineContext Response

/-- The parser as it is constructed. -/
def RequestIncrementalParser.new (out : Request) : RequestIncrementalParser := ⟨out, .line {}⟩

def ResponseIncrementalParser.new (out : Response) : ResponseIncrementalParser := ⟨out, .line {}⟩

/-- `request_incremental_parser::parse`. -/
def RequestIncrementalParser.Parse (p : RequestIncrementalParser) (input : Bytes)
    (r : ParseState ParseRequestLineContext Request) : Prop := requestFormat.Parses p input r

/-- `response_incremental_parser::parse`. -/
def ResponseIncrementalParser.Parse (p : ResponseIncrementalParser) (input : Bytes)
    (r : ParseState ParseStatusLineContext Response) : Prop := responseFormat.Parses p input r

/-! ## Where the line ends -/

/-- A beginning of a token, neither empty nor the token as a whole. -/
def Begins (token t : Bytes) : Prop := t ≠ [] ∧ t <+: token ∧ t ≠ token

/-- A text that ends in the version. -/
def EndsInVersion (t : Bytes) : Prop := t = ascii "1" ∨ t = ascii "1."

/-- A text that ends in `HTTP/`, or behind it as `next` says. -/
def EndsInSlash (next : Bytes → Prop) (t : Bytes) : Prop := Begins httpSlash t ∨ ∃ u, t = httpSlash ++ u ∧ next u

/-- A text that begins with a space and ends as `next` says. -/
def EndsBehindSp (next : Bytes → Prop) (t : Bytes) : Prop := ∃ u, t = 0x20 :: u ∧ next u

/-- A text that goes on with a target, of which `target` is read already, and ends in what is behind it. -/
def EndsBehindTarget (method : Verb) (target t : Bytes) : Prop :=
  ∃ x u, t = x ++ 0x20 :: u ∧ (∀ b ∈ x, b ≠ 0x20 ∧ isHttpVchar b = true) ∧ validateTarget method (target ++ x) = none ∧
    EndsInSlash EndsInVersion u

/-- A text that begins with the first character of a target and ends in what is behind the target. -/
def EndsBehindTargetStart (method : Verb) (target t : Bytes) : Prop :=
  ∃ b u, t = b :: u ∧ isHttpVchar b = true ∧ (b = 0x2a → method = .options) ∧ (b = 0x2f → method ≠ .connect) ∧
    if b = 0x2a then EndsBehindSp (EndsInSlash EndsInVersion) u else EndsBehindTarget method (target ++ [b]) u

/-- A text that ends in one of the tokens of a request line, read from where the context is. -/
def ParseRequestLineContext.EndsInToken (ctx : ParseRequestLineContext) (t : Bytes) : Prop :=
  match ctx.stage with
  | .method =>
    (∃ e ∈ httpVerbs, Begins e.1 t) ∨
      ∃ e ∈ httpVerbs, ∃ u, t = e.1 ++ u ∧ EndsBehindSp (EndsBehindTargetStart e.2 ctx.target) u
  | .sp .targetStart => EndsBehindSp (EndsBehindTargetStart ctx.method ctx.target) t
  | .sp .httpSlash => EndsBehindSp (EndsInSlash EndsInVersion) t
  | .targetStart => EndsBehindTargetStart ctx.method ctx.target t
  | .target => EndsBehindTarget ctx.method ctx.target t
  | .httpSlash => EndsInSlash EndsInVersion t
  | .version => EndsInVersion t
  | _ => False

/-- A text that ends in the status. -/
def EndsInStatus (t : Bytes) : Prop := t ≠ [] ∧ t.length < 3 ∧ t.all isDigit = true ∧ t.head? ≠ some 0x30

/-- A text that ends in the version or in the status behind it. -/
def EndsInVersionOrStatus (t : Bytes) : Prop :=
  EndsInVersion t ∨ ∃ e ∈ httpVersions, ∃ u, t = e.1 ++ u ∧ EndsBehindSp EndsInStatus u

/-- A text that ends in one of the tokens of a status line, read from where the context is. -/
def ParseStatusLineContext.EndsInToken (ctx : ParseStatusLineContext) (t : Bytes) : Prop :=
  match ctx.stage with
  | .httpSlash => EndsInSlash EndsInVersionOrStatus t
  | .version => EndsInVersionOrStatus t
  | .sp .status => EndsBehindSp EndsInStatus t
  | .status => EndsInStatus t
  | _ => False

/-- The text ends in one of the tokens of the line before the headers. -/
def IncrementalParser.EndsInToken {κ μ : Type} (ends : κ → Bytes → Prop) (p : IncrementalParser κ μ) (t : Bytes) : Prop :=
  match p.stage with
  | .line ctx => ends ctx t
  | _ => False

/-! ## Reading a response (src/net/http/http_client.cpp)

`http_client::read_http_response`, with what the transport delivers for each of its reads. The ring buffer is the list
of the bytes in it. Timeouts, cancellation and the writes of the body are left out.
-/

/-- `res_parser.need_more()`. -/
def IncrementalParser.needMore {κ μ : Type} (p : IncrementalParser κ μ) : Bool := !p.done && !p.hasError

/-- What `read_http_response` works on. The parser writes `res`. -/
structure Reading where
  parser : ResponseIncrementalParser
  /-- `rbuf_`. -/
  rbuf : Bytes := []
  received100Continue : Bool := false

inductive ReadResult where
  /-- It returns with the response, what is left in `rbuf_` and the reads that it has not asked for. -/
  | completed (res : Response) (rbuf : Bytes) (reads : List Bytes)
  | parseError (e : Error)
  | badResponseCode
  /-- It asks the transport for bytes that never come. -/
  | waits

/-- What is done with a response behind its parser: the next one is read, or the function ends. -/
def Reading.afterResponse (expects100Continue : Bool) (s : Reading) (reads : List Bytes) : Reading ⊕ ReadResult :=
  let res := s.parser.out
  if expects100Continue && !s.received100Continue then
    if res.status ≠ 100 then .inr .badResponseCode
    else .inl { s with parser := .new res.clear, received100Continue := true }
  else if res.status = 101 then .inr .badResponseCode
  else if res.isInformational then .inl { s with parser := .new res.clear }
  else .inr (.completed res s.rbuf reads)

/-- The loops of `read_http_response`, with the reads that are still to come. -/
inductive ReadHttpResponse (expects100Continue : Bool) : Reading → List Bytes → ReadResult → Prop where
  | waits {s : Reading} (h : s.parser.needMore = true) : ReadHttpResponse expects100Continue s [] .waits
  | read {s : Reading} {read : Bytes} {reads : List Bytes} {r : ParseState ParseStatusLineContext Response}
      {result : ReadResult} (h : s.parser.needMore = true) (hparse : s.parser.Parse (s.rbuf ++ read) r)
      (hec : r.ec = none)
      (hnext : ReadHttpResponse expects100Continue { s with parser := r.parser, rbuf := r.input } reads result) :
      ReadHttpResponse expects100Continue s (read :: reads) result
  | fails {s : Reading} {read : Bytes} {reads : List Bytes} {r : ParseState ParseStatusLineContext Response} {e : Error}
      (h : s.parser.needMore = true) (hparse : s.parser.Parse (s.rbuf ++ read) r) (hec : r.ec = some e) :
      ReadHttpResponse expects100Continue s (read :: reads) (.parseError e)
  | nextResponse {s s' : Reading} {reads : List Bytes} {result : ReadResult} (h : s.parser.done = true)
      (hafter : s.afterResponse expects100Continue reads = .inl s')
      (hnext : ReadHttpResponse expects100Continue s' reads result) :
      ReadHttpResponse expects100Continue s reads result
  | ends {s : Reading} {reads : List Bytes} {result : ReadResult} (h : s.parser.done = true)
      (hafter : s.afterResponse expects100Continue reads = .inr result) :
      ReadHttpResponse expects100Continue s reads result

/-! ## What the server sends -/

/-- The heads of responses, as they come one after the other: a parser with `out` is done with the first of them. -/
def AreHeads (out : Response) : List (Bytes × Response) → Prop
  | [] => True
  | (head, res) :: heads =>
    (ResponseIncrementalParser.new out).Parse head ⟨⟨res, .done⟩, [], none⟩ ∧ AreHeads res.clear heads

/-- The reads come as the responses need them: each response waits for a read, and `data` is what was read of it before.
No read that leaves a response incomplete ends in a token of its status line, and the last response is there with the
last read. -/
def Arrives (heads : List Bytes) (data : Bytes) (reads : List Bytes) : Prop :=
  match reads, heads with
  | [], _ => False
  | _, [] => False
  | read :: reads, head :: heads =>
    if head.length ≤ (data ++ read).length then
      if heads = [] then reads = [] else Arrives heads ((data ++ read).drop head.length) reads
    else ¬ParseStatusLineContext.EndsInToken {} (data ++ read) ∧ Arrives (head :: heads) (data ++ read) reads

end Rad.Http
