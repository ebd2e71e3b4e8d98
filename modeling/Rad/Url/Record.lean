import Rad.Text.Utf
import Rad.Text.Ascii

/-!
# URL records (include/rad/net/url/url.h, `serialize_url` of src/net/url/url.cpp)
-/

namespace Rad.Url

/-! ## Errors -/

/-- The errors of the parser: those of `url_error_code` that it gives, and those of the functions that it calls. -/
inductive UrlError where
  | invalidArgument
  | percentEncoding
  | invalidUrlUnit
  | missingSchemeNonRelativeUrl
  | hostMissing
  | hostInvalidCodePoint
  | domainInvalidCodePoint
  | ipv6Unclosed
  | ipv6Invalid
  | ipv4TooManyParts
  | ipv4NonNumericPart
  | ipv4OutOfRange
  | domainToAscii
  | portInvalid
  | portOutOfRange
  deriving DecidableEq

/-! ## Records -/

/-- `url_record_flags`. -/
structure UrlRecordFlags where
  host : Bool := false
  username : Bool := false
  password : Bool := false
  port : Bool := false
  query : Bool := false
  fragment : Bool := false
  invalidHost : Bool := false
  ipv4Host : Bool := false
  ipv6Host : Bool := false
  domainHost : Bool := false
  opaqueHost : Bool := false
  emptyHost : Bool := false
  opaquePath : Bool := false
  specialScheme : Bool := false
  emptyFirstPathSegment : Bool := false
  deriving DecidableEq

/-- The operator `|=`. -/
def UrlRecordFlags.union (a b : UrlRecordFlags) : UrlRecordFlags where
  host := a.host || b.host
  username := a.username || b.username
  password := a.password || b.password
  port := a.port || b.port
  query := a.query || b.query
  fragment := a.fragment || b.fragment
  invalidHost := a.invalidHost || b.invalidHost
  ipv4Host := a.ipv4Host || b.ipv4Host
  ipv6Host := a.ipv6Host || b.ipv6Host
  domainHost := a.domainHost || b.domainHost
  opaqueHost := a.opaqueHost || b.opaqueHost
  emptyHost := a.emptyHost || b.emptyHost
  opaquePath := a.opaquePath || b.opaquePath
  specialScheme := a.specialScheme || b.specialScheme
  emptyFirstPathSegment := a.emptyFirstPathSegment || b.emptyFirstPathSegment

/-- `clear_host_flags`. -/
def UrlRecordFlags.clearHost (flags : UrlRecordFlags) : UrlRecordFlags :=
  { flags with emptyHost := false, ipv4Host := false, ipv6Host := false, domainHost := false, opaqueHost := false }

/-- `url_record`; there is no position for the value -1. -/
structure UrlRecord where
  flags : UrlRecordFlags := {}
  port : UInt16 := 0
  passwordPos : Option Nat := none
  scheme : Bytes := []
  userinfo : Bytes := []
  host : Bytes := []
  path : Bytes := []
  query : Bytes := []
  fragment : Bytes := []
  deriving DecidableEq

namespace UrlRecord

def hasHost (url : UrlRecord) : Bool := url.flags.host

/-- All of the userinfo is the password when this begins at 0. -/
def hasUsername (url : UrlRecord) : Bool := url.flags.username && url.userinfo ≠ [] && url.passwordPos ≠ some 0

def hasPassword (url : UrlRecord) : Bool :=
  url.flags.password && url.userinfo ≠ [] && url.passwordPos.any (· < url.userinfo.length)

def hasPort (url : UrlRecord) : Bool := url.flags.port

def isOpaquePath (url : UrlRecord) : Bool := url.flags.opaquePath

def hasQuery (url : UrlRecord) : Bool := url.flags.query

def hasFragment (url : UrlRecord) : Bool := url.flags.fragment

def isSpecial (url : UrlRecord) : Bool := url.flags.specialScheme

def isEmptyFirstPathSegment (url : UrlRecord) : Bool := url.flags.emptyFirstPathSegment

def username (url : UrlRecord) : Bytes :=
  if !url.hasUsername then []
  else
    match url.passwordPos with
    | none => url.userinfo
    | some passwordPos => if passwordPos ≥ url.userinfo.length then url.userinfo else url.userinfo.take passwordPos

def password (url : UrlRecord) : Bytes :=
  if !url.hasPassword then [] else url.userinfo.drop (url.passwordPos.getD 0)

/-- What kind of host there is. -/
inductive HostKind where
  | empty
  | ipv4
  | ipv6
  | domain
  | opaqueText
  deriving DecidableEq

/-- `set_host_flag` of the kinds of hosts. -/
def setHostFlag (url : UrlRecord) (kind : HostKind) : UrlRecord :=
  let flags := { url.flags.clearHost with host := true }
  { url with
    flags := match kind with
      | .empty => { flags with emptyHost := true }
      | .ipv4 => { flags with ipv4Host := true }
      | .ipv6 => { flags with ipv6Host := true }
      | .domain => { flags with domainHost := true }
      | .opaqueText => { flags with opaqueHost := true } }

end UrlRecord

/-! ## Schemes -/

def isSpecialScheme (scheme : Bytes) : Bool :=
  scheme = ascii "ftp" || scheme = ascii "file" || scheme = ascii "http" || scheme = ascii "https" ||
    scheme = ascii "ws" || scheme = ascii "wss"

def defaultSchemePort (scheme : Bytes) : Option UInt16 :=
  if scheme = ascii "http" ∨ scheme = ascii "ws" then some 80
  else if scheme = ascii "https" ∨ scheme = ascii "wss" then some 443
  else if scheme = ascii "ftp" then some 21
  else none

/-! ## Serialization -/

/-- The credentials in front of the host. -/
def serializeCredentials (url : UrlRecord) : Bytes :=
  if url.hasUsername || url.hasPassword then
    url.username ++ (if url.password ≠ [] then 0x3a :: url.password else []) ++ [0x40]
  else []

def serializePort (url : UrlRecord) : Bytes := if url.hasPort then 0x3a :: toChars 10 url.port.toNat else []

def serializeHost (url : UrlRecord) : Bytes :=
  if url.hasHost then ascii "//" ++ serializeCredentials url ++ url.host ++ serializePort url else []

/-- A path that could be read as a host is marked. -/
def serializePath (url : UrlRecord) : Bytes :=
  (if !url.hasHost && !url.isOpaquePath && url.path.length > 1 && url.isEmptyFirstPathSegment then ascii "/." else []) ++
    url.path

def serializeQuery (url : UrlRecord) : Bytes := if url.hasQuery then 0x3f :: url.query else []

def serializeFragment (url : UrlRecord) : Bytes := if url.hasFragment then 0x23 :: url.fragment else []

/-- `serialize_url`. -/
def serializeUrl (url : UrlRecord) (excludeFragment : Bool) : Bytes :=
  url.scheme ++ [0x3a] ++ serializeHost url ++ serializePath url ++ serializeQuery url ++
    (if excludeFragment then [] else serializeFragment url)

/-- `url::href`. -/
def href (url : UrlRecord) : Bytes := serializeUrl url false

/-! ## What a URL shows (the class `url` of include/rad/net/url/url.h) -/

namespace UrlRecord

/-- `url::port`. -/
def portNumber (url : UrlRecord) : UInt16 := if url.hasPort then url.port else (defaultSchemePort url.scheme).getD 0

/-- `url::query`. -/
def queryText (url : UrlRecord) : Bytes := if url.hasQuery then url.query else []

/-- `url::fragment`. -/
def fragmentText (url : UrlRecord) : Bytes := if url.hasFragment then url.fragment else []

end UrlRecord

/-- The parts of a URL that can be asked for. -/
structure Components where
  scheme : Bytes
  username : Bytes
  password : Bytes
  hasHost : Bool
  hostname : Bytes
  hasPort : Bool
  port : UInt16
  pathname : Bytes
  hasOpaquePath : Bool
  hasQuery : Bool
  query : Bytes
  hasFragment : Bool
  fragment : Bytes
  deriving DecidableEq

def UrlRecord.components (url : UrlRecord) : Components where
  scheme := url.scheme
  username := url.username
  password := url.password
  hasHost := url.hasHost
  hostname := url.host
  hasPort := url.hasPort
  port := url.portNumber
  pathname := url.path
  hasOpaquePath := url.isOpaquePath
  hasQuery := url.hasQuery
  query := url.queryText
  hasFragment := url.hasFragment
  fragment := url.fragmentText

/-! ## The pointer of the URL parser (`url_pointer` of src/net/url/url.cpp)

The pointers into the input are offsets, and the end of the input is its length.
-/

structure UrlPointer where
  originalInput : Bytes
  next : Nat
  remainingSize : Nat
  current : Nat
  deriving DecidableEq

/-- What a state function does to the pointer. -/
inductive Move where
  | keep
  | decrease
  | increase
  | restart
  | decreaseByBytesPlus1Codepoint (nbytes : Nat)
  deriving DecidableEq

namespace UrlPointer

/-- `end`. -/
def inputEnd (p : UrlPointer) : Nat := p.originalInput.length

def isEof (p : UrlPointer) : Bool := p.next > p.inputEnd

def restart (p : UrlPointer) : UrlPointer :=
  { p with current := 0, next := 0, remainingSize := p.originalInput.length }

/-- A pointer to the beginning of an input. -/
def ofInput (input : Bytes) : UrlPointer := ⟨input, 0, input.length, 0⟩

/-- `remaining`. -/
def remaining (p : UrlPointer) : Bytes := (p.originalInput.drop p.next).take p.remainingSize

def advance (p : UrlPointer) : Except UrlError (Nat × UrlPointer) :=
  if p.isEof then .error .invalidArgument
  else if p.remainingSize = 0 then .ok (0, { p with next := p.inputEnd + 1 })
  else
    match utf8Decode p.remaining with
    | (.error _, _) => .error .invalidUrlUnit
    | (.ok c, rest) =>
      let size := p.remainingSize - rest.length
      .ok (c, { p with current := p.next, next := p.next + size, remainingSize := rest.length })

/-- The pointer behind a call of `advance`, also if the call fails. -/
def advanced (p : UrlPointer) : UrlPointer :=
  match p.advance with
  | .ok (_, q) => q
  | .error _ =>
    if p.isEof then p else { p with current := p.next, remainingSize := (utf8Decode p.remaining).2.length }

def decrease (p : UrlPointer) : UrlPointer :=
  let next := if p.isEof then p.inputEnd else p.current
  { p with next := next, remainingSize := p.inputEnd - next }

def decreaseByBytesPlus1Codepoint (p : UrlPointer) (nbytes : Nat) : UrlPointer :=
  let p := if p.isEof then { p with current := p.inputEnd, next := p.inputEnd } else p.decrease
  { p with next := p.next - nbytes, current := p.current - nbytes, remainingSize := p.remainingSize + nbytes }

def increase (p : UrlPointer) : UrlPointer :=
  { p with current := p.next, next := p.next + 1, remainingSize := p.remainingSize - 1 }

/-- `encoded_codepoint`. -/
def encodedCodepoint (p : UrlPointer) : Bytes := (p.originalInput.drop p.current).take (p.next - p.current)

/-- `codepoint_substring`. -/
def codepointSubstring (p : UrlPointer) : Bytes := p.originalInput.drop p.current

def move (p : UrlPointer) : Move → UrlPointer
  | .keep => p
  | .decrease => p.decrease
  | .increase => p.increase
  | .restart => p.restart
  | .decreaseByBytesPlus1Codepoint nbytes => p.decreaseByBytesPlus1Codepoint nbytes

end UrlPointer

/-- What a state function sees: the code point and the texts that it asks the pointer for. -/
structure View where
  c : Nat
  isEof : Bool
  encodedCodepoint : Bytes
  remaining : Bytes
  codepointSubstring : Bytes

def UrlPointer.view (p : UrlPointer) (c : Nat) : View :=
  ⟨c, p.isEof, p.encodedCodepoint, p.remaining, p.codepointSubstring⟩

end Rad.Url
