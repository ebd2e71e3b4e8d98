import Rad.Http.Tokens

/-!
# Serialization of messages (src/net/http/message_serialization.cpp)

`serialize_request` and `serialize_response` compute the size of a message, prepare the space for it at the end of the output
buffer and write the message there. A write that does not fit in the space has no result.
-/

namespace Rad.Http

def crlf : Bytes := ascii "\r\n"

def colonSp : Bytes := ascii ": "

def sp : Bytes := ascii " "

/-- The part of a buffer behind the first `pos` bytes. -/
structure Span where
  buffer : Bytes
  pos : Nat
  deriving DecidableEq

def Span.size (out : Span) : Nat := out.buffer.length - out.pos

/-- `dynamic_buffer::prepare`: the space behind the bytes of the buffer. -/
def prepare (out : Bytes) (size : Nat) : Span := ⟨out ++ List.replicate size 0, out.length⟩

def copyIntoSpan (out : Span) (p : Bytes) : Option Span :=
  if p.length ≤ out.size then
    some ⟨out.buffer.take out.pos ++ p ++ out.buffer.drop (out.pos + p.length), out.pos + p.length⟩
  else none

def serializeHeaders (out : Span) (headers : Headers) : Option Span :=
  headers.foldlM (fun out header => do
    let out ← copyIntoSpan out header.1
    let out ← copyIntoSpan out colonSp
    let out ← copyIntoSpan out header.2
    copyIntoSpan out crlf) out

def insertHeadersAndBody (out : Span) (headers : Headers) (body : Bytes) : Option Span := do
  let out ← serializeHeaders out headers
  -- final CRLF terminating the headers
  let out ← copyIntoSpan out crlf
  copyIntoSpan out body

/-- `headers_base::serialized_size`. -/
def Headers.serializedSize (headers : Headers) : Nat :=
  if headers = [] then 0
  else headers.foldl (fun size header => size + (header.1.length + header.2.length)) ((2 + crlf.length) * headers.length)

def serializeRequest (method : Verb) (path : Bytes) (ver : Version) (headers : Headers) (headersSerializedSize : Nat)
    (body out : Bytes) : Option Bytes := do
  let verbStr := verbToString method
  let versionStr := versionToString ver
  let size := verbStr.length + 1 + path.length + 1 + httpSlash.length + versionStr.length + crlf.length * 2 +
    headersSerializedSize + body.length
  let outSpan := prepare out size
  let outSpan ← copyIntoSpan outSpan verbStr
  let outSpan ← copyIntoSpan outSpan sp
  let outSpan ← copyIntoSpan outSpan path
  let outSpan ← copyIntoSpan outSpan sp
  let outSpan ← copyIntoSpan outSpan httpSlash
  let outSpan ← copyIntoSpan outSpan versionStr
  let outSpan ← copyIntoSpan outSpan crlf
  let outSpan ← insertHeadersAndBody outSpan headers body
  -- to ensure no excess space
  some (outSpan.buffer.take (out.length + size - outSpan.size))

def serializeResponse (status : Nat) (ver : Version) (reasonPhrase : Bytes) (headers : Headers)
    (headersSerializedSize : Nat) (body out : Bytes) : Option Bytes := do
  let versionStr := versionToString ver
  let statusCodeStr := toDecimal status
  -- the array for the digits of the status
  if 10 < statusCodeStr.length then some out
  else
    let size := httpSlash.length + versionStr.length + 1 + statusCodeStr.length + 1 + crlf.length * 2 +
      (if reasonPhrase ≠ [] then 1 + reasonPhrase.length else 0) + headersSerializedSize + body.length
    let outSpan := prepare out size
    let outSpan ← copyIntoSpan outSpan httpSlash
    let outSpan ← copyIntoSpan outSpan versionStr
    let outSpan ← copyIntoSpan outSpan sp
    let outSpan ← copyIntoSpan outSpan statusCodeStr
    let outSpan ← copyIntoSpan outSpan sp
    let outSpan ← copyIntoSpan outSpan reasonPhrase
    let outSpan ← copyIntoSpan outSpan crlf
    let outSpan ← insertHeadersAndBody outSpan headers body
    -- to ensure no excess space
    some (outSpan.buffer.take (out.length + size - outSpan.size))

/-- `request_base::serialize`, for a request with the body `body`. -/
def Request.serialize (req : Request) (body out : Bytes) (includeBody : Bool) : Option Bytes :=
  serializeRequest req.method req.target req.version req.headers req.headers.serializedSize
    (if includeBody then body else []) out

/-- `response_base::serialize`, for a response with the body `body`. -/
def Response.serialize (res : Response) (body out : Bytes) (includeBody : Bool) : Option Bytes :=
  serializeResponse res.status res.version res.reason res.headers res.headers.serializedSize
    (if includeBody then body else []) out

/-! ## What is written -/

/-- The lines of the headers. -/
def Headers.text (headers : Headers) : Bytes :=
  headers.flatMap fun header => header.1 ++ colonSp ++ header.2 ++ crlf

def Request.line (req : Request) : Bytes :=
  verbToString req.method ++ sp ++ req.target ++ sp ++ httpSlash ++ versionToString req.version ++ crlf

/-- A request up to the line that ends the headers. -/
def Request.head (req : Request) : Bytes := req.line ++ req.headers.text ++ crlf

def Response.line (res : Response) : Bytes :=
  httpSlash ++ versionToString res.version ++ sp ++ toDecimal res.status ++ sp ++ res.reason ++ crlf

/-- A response up to the line that ends the headers. -/
def Response.head (res : Response) : Bytes := res.line ++ res.headers.text ++ crlf

/-! ## Messages that are read back -/

/-- The name of a field. -/
def IsToken (name : Bytes) : Prop := name ≠ [] ∧ ∀ b ∈ name, isHttpTchar b = true

/-- The value of a field, with no white space at its ends. -/
def IsFieldText (value : Bytes) : Prop :=
  (∀ b ∈ value, isFieldVchar b = true ∨ isHttpWs b = true) ∧
    (∀ b, value.head? = some b → isHttpWs b = false) ∧ ∀ b, value.getLast? = some b → isHttpWs b = false

/-- The headers of a message: no two of the same name, and a Content-Length that is a number. -/
structure Headers.WellFormed (headers : Headers) : Prop where
  name : ∀ header ∈ headers, IsToken header.1
  value : ∀ header ∈ headers, IsFieldText header.2
  distinct : headers.Pairwise fun a b => iequal a.1 b.1 = false
  length : ∀ header ∈ headers, iequal header.1 (ascii "Content-Length") = true →
    header.2 ≠ [] ∧ header.2.all isDigit = true ∧ decimalValue header.2 < 2 ^ 64

/-- A request with a path as its target, or with `*` for the server as a whole. -/
structure Request.WellFormed (req : Request) : Prop where
  method : req.method ≠ .invalid ∧ req.method ≠ .connect
  target : ∀ b ∈ req.target, 0x21 ≤ b ∧ b ≤ 0x7e
  start : req.target.head? = some 0x2f ∨ req.target = [0x2a] ∧ req.method = .options
  version : req.version ≠ .invalid
  headers : req.headers.WellFormed

structure Response.WellFormed (res : Response) : Prop where
  status : 100 ≤ res.status ∧ res.status ≤ 999
  version : res.version ≠ .invalid
  reason : ∀ b ∈ res.reason, isHttpReasonPhrase b = true
  headers : res.headers.WellFormed

end Rad.Http
