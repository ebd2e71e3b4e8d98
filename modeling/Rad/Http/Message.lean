import Rad.Text.Ascii

/-!
# HTTP messages (include/rad/net/http/http_parser.h)

The message types: methods, versions, field names, header lists, requests and responses. A body is no part of a message
here; what sends or receives one has it next to the message.
-/

namespace Rad.Http

inductive Verb where
  | invalid
  | get
  | post
  | put
  | head
  | delete
  | options
  | connect
  deriving DecidableEq, Repr

/-- `http_verbs`, in the order of the enumerators from `get` on. -/
def httpVerbs : List (Bytes × Verb) := [
    (ascii "GET", .get), (ascii "POST", .post), (ascii "PUT", .put), (ascii "HEAD", .head),
    (ascii "DELETE", .delete), (ascii "OPTIONS", .options), (ascii "CONNECT", .connect)]

def verbToString (v : Verb) : Bytes := ((httpVerbs.find? fun e => e.2 == v).map Prod.fst).getD []

def stringToVerb (text : Bytes) : Verb := ((httpVerbs.find? fun e => e.1 == text).map Prod.snd).getD .invalid

inductive Version where
  | invalid
  | v1_0
  | v1_1
  deriving DecidableEq, Repr

/-- `field_to_string(field::host)`. -/
def hostField : Bytes := ascii "Host"

/-- `field_to_string(field::cookie)`. -/
def cookieField : Bytes := ascii "Cookie"

/-- The values of `http::error` that the HPACK decoder and the parsers of messages report. -/
inductive Error where
  | badLineEnding
  | badMethod
  | badTarget
  | badVersion
  | badStatus
  | badReason
  | badField
  | badValue
  | badContentLength
  | badChunk
  | badChunkExtension
  /-- The behaviour of the code is not defined. -/
  | undefined
  deriving DecidableEq, Repr

/-! ## Header lists -/

/-- `http::headers`: names and values in the order of the list. -/
abbrev Headers := List (Bytes × Bytes)

namespace Headers

/-- `find`, as an index. -/
def find (hdrs : Headers) (name : Bytes) : Option Nat := hdrs.findIdx? fun header => iequal header.1 name

/-- `insert`: right behind the first header of the same name, otherwise at the end. -/
def insert (hdrs : Headers) (name value : Bytes) : Headers :=
  match hdrs.find name with
  | some it => hdrs.insertIdx (it + 1) (name, value)
  | none => hdrs.insertIdx hdrs.length (name, value)

/-- `count`. -/
def count (hdrs : Headers) (name : Bytes) : Nat := hdrs.countP fun header => iequal header.1 name

/-- `equal_range`: the first header of the name and those right behind it with the same name. -/
def equalRange (hdrs : Headers) (name : Bytes) : Headers :=
  match hdrs.find name with
  | none => []
  | some first => (hdrs.drop first).takeWhile fun header => iequal header.1 name

/-- `remove`, which erases from the first header of the name on, up to the first one of another name. -/
def remove (hdrs : Headers) (name : Bytes) : Headers :=
  match hdrs.find name with
  | none => hdrs
  | some it => hdrs.take it ++ (hdrs.drop it).dropWhile fun header => iequal header.1 name

/-- `get_headers_view`. -/
def getHeadersView (hdrs : Headers) : Headers := hdrs.foldl (fun view header => view.insert header.1 header.2) []

end Headers

/-! ## Messages -/

structure Request where
  method : Verb := .invalid
  target : Bytes := []
  version : Version := .invalid
  headers : Headers := []
  deriving DecidableEq

structure Response where
  status : Nat := 0
  reason : Bytes := []
  headers : Headers := []
  version : Version := .invalid
  deriving DecidableEq

/-- `clear(false)`. -/
def Response.clear (_res : Response) : Response := {}

def Response.isInformational (res : Response) : Bool := res.status ≥ 100 && res.status < 200

/-! ## Numbers in text -/

/-- `'0' <= ch && ch <= '9'`. -/
def isDigit (ch : UInt8) : Bool := 0x30 ≤ ch && ch ≤ 0x39

/-- The value of a string of decimal digits. -/
def decimalValue (digits : Bytes) : Nat := digits.foldl (fun n ch => 10 * n + (ch.toNat - 0x30)) 0

/-- `to_uint32(from, 10, ec)`: the number and whether there was no error. `std::from_chars` reads the leading digits,
and leaves the number alone when there are none or their value does not fit. -/
def toUint32 (text : Bytes) : Nat × Bool :=
  let digits := text.takeWhile isDigit
  if digits = [] then (0, false)
  else if decimalValue digits ≥ 2 ^ 32 then (0, false)
  else (decimalValue digits, digits.length == text.length)

/-- `to_uint64(from, 10, ec)`, like `to_uint32`. -/
def toUint64 (text : Bytes) : Nat × Bool :=
  let digits := text.takeWhile isDigit
  if digits = [] then (0, false)
  else if decimalValue digits ≥ 2 ^ 64 then (0, false)
  else (decimalValue digits, digits.length == text.length)

/-- The value of the Content-Length header, empty if there is none. -/
def Response.getContentLength (res : Response) : Bytes :=
  match (res.headers.find (ascii "Content-Length")).bind (res.headers[·]?) with
  | some header => header.2
  | none => []

/-- `std::to_string` of an unsigned number. -/
def toDecimal (n : Nat) : Bytes := (Nat.toDigits 10 n).map fun c => c.toNat.toUInt8

end Rad.Http
