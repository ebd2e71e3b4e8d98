import Rad.Idna.Basic
import Rad.Url.Percent
import Rad.Url.Record

/-!
# IP addresses of hosts (src/net/url/url_ip_parsing.cpp, src/net/types.cpp)
-/

namespace Rad.Url

/-! ## IPv4 -/

/-- An IPv4 address is its number. -/
abbrev Ipv4 := UInt32

/-- `ipv4::to_string`. -/
def Ipv4.toText (address : Ipv4) : Bytes :=
  [0x2e].intercalate
    ([address.toNat / 0x1000000, address.toNat / 0x10000 % 0x100, address.toNat / 0x100 % 0x100, address.toNat % 0x100].map
      (toChars 10))

/-- A part of the text of `ipv4::from_string`, with the prefixes of its base. -/
def ipv4Byte (part : Bytes) : Option Nat :=
  if part = [] then none
  else if part.head? = some 0x30 then
    if part.length = 1 then some 0
    else if part[1]? = some 0x78 ∨ part[1]? = some 0x58 then toNumeric 8 16 (part.drop 2)
    else toNumeric 8 8 part
  else toNumeric 8 10 part

/-- `ipv4::from_string`. -/
def Ipv4.ofText (text : Bytes) : Option Ipv4 :=
  match (text.splitOn 0x2e).mapM ipv4Byte with
  | some [a, b, c, d] => some (UInt32.ofNat (a * 0x1000000 + b * 0x10000 + c * 0x100 + d))
  | _ => none

def isValidForRadix (c : UInt8) (r : Nat) : Bool :=
  if r = 10 then 0x30 ≤ c && c ≤ 0x39
  else if r = 8 then 0x30 ≤ c && c ≤ 0x37
  else if r = 16 then (0x30 ≤ c && c ≤ 0x39) || (0x61 ≤ c && c ≤ 0x66) || (0x41 ≤ c && c ≤ 0x46)
  else false

def startsWithHexPrefix (input : Bytes) : Bool := (ascii "0x").isPrefixOf input || (ascii "0X").isPrefixOf input

/-- `parse_ipv4_number`; whether there was a validation error is not asked for. -/
def parseIpv4Number (input : Bytes) : Option Nat :=
  if input = [] then none
  else
    let (input, r) :=
      if startsWithHexPrefix input then (input.drop 2, 16)
      else if input.length ≥ 2 ∧ input.head? = some 0x30 then (input.drop 1, 8)
      else (input, 10)
    if input = [] then some 0
    else if !input.all (isValidForRadix · r) then none
    else toNumeric 32 r input

/-- The parts of a domain, but for an empty last one. -/
def ipv4Parts (input : Bytes) : List Bytes :=
  let parts := input.splitOn 0x2e
  if parts.getLast? = some [] ∧ parts.length > 1 then parts.dropLast else parts

def isDecimalOrHexNumber (last : Bytes) : Bool :=
  let isHex := startsWithHexPrefix last
  let sublast := if isHex then last.drop 2 else last
  sublast ≠ [] && sublast.all fun ch =>
    (0x30 ≤ ch && ch ≤ 0x39) || (isHex && ((0x61 ≤ ch && ch ≤ 0x66) || (0x41 ≤ ch && ch ≤ 0x46)))

def urlDomainEndsInNumber (input : Bytes) : Bool :=
  let parts := input.splitOn 0x2e
  if parts.getLast? = some [] ∧ parts.length = 1 then false
  else
    match (ipv4Parts input).getLast? with
    | none => false
    | some last => isDecimalOrHexNumber last || (parseIpv4Number last).isSome

/-- The numbers of the parts. -/
def ipv4Numbers : List Bytes → Except UrlError (List Nat)
  | [] => .ok []
  | part :: parts =>
    match parseIpv4Number part with
    | none => .error .ipv4NonNumericPart
    | some n => (ipv4Numbers parts).map (n :: ·)

/-- The numbers in front of the last one are added, from the given place on. -/
def addIpv4Numbers (ipv4Num : UInt32) (counter : Nat) : List Nat → UInt32
  | [] => ipv4Num
  | n :: numbers =>
    addIpv4Numbers (ipv4Num + UInt32.ofNat n * UInt32.ofNat (256 ^ (3 - counter))) (counter + 1) numbers

def parseUrlIpv4Host (input : Bytes) : Except UrlError Ipv4 :=
  let parts := ipv4Parts input
  if parts.length > 4 then .error .ipv4TooManyParts
  else
    (ipv4Numbers parts).bind fun numbers =>
      if numbers.dropLast.any (· > 255) then .error .ipv4OutOfRange
      else
        let last := numbers.getLast?.getD 0
        if last ≥ 256 ^ (5 - numbers.length) then .error .ipv4OutOfRange
        else .ok (addIpv4Numbers (UInt32.ofNat last) 0 numbers.dropLast)

/-! ## IPv6 -/

/-- An IPv6 address is its eight words. -/
structure Ipv6 where
  words : List UInt16
  length : words.length = 8
  deriving DecidableEq

/-- The loop of `find_ipv6_compressed_piece_index`. -/
structure CompressedPiece where
  longestIndex : Option Nat := none
  longestSize : Nat := 1
  foundIndex : Option Nat := none
  foundSize : Nat := 0

def CompressedPiece.next (s : CompressedPiece) (pieceIndex : Nat) (piece : UInt16) : CompressedPiece :=
  if piece ≠ 0 then
    let longest := s.foundSize > s.longestSize
    { longestIndex := if longest then s.foundIndex else s.longestIndex
      longestSize := if longest then s.foundSize else s.longestSize }
  else
    { s with foundIndex := s.foundIndex.or (some pieceIndex), foundSize := s.foundSize + 1 }

def findIpv6CompressedPieceIndex (address : Ipv6) : Option Nat :=
  let s := address.words.zipIdx.foldl (fun s (piece, i) => s.next i piece) ({} : CompressedPiece)
  if s.foundSize > s.longestSize then s.foundIndex else s.longestIndex

/-- The loop of `url_serialize_ipv6` over the pieces from an index on. -/
def serializePieces (compress : Option Nat) (ignore0 : Bool) (pieceIndex : Nat) : List UInt16 → Bytes
  | [] => []
  | piece :: pieces =>
    if ignore0 && piece = 0 then serializePieces compress true (pieceIndex + 1) pieces
    else if compress = some pieceIndex then
      ascii (if pieceIndex = 0 then "::" else ":") ++ serializePieces compress true (pieceIndex + 1) pieces
    else
      toChars 16 piece.toNat ++ ((if pieceIndex ≠ 7 then [0x3a] else []) ++
        serializePieces compress false (pieceIndex + 1) pieces)

def urlSerializeIpv6 (address : Ipv6) : Bytes :=
  [0x5b] ++ serializePieces (findIpv6CompressedPieceIndex address) false 0 address.words ++ [0x5d]

/-! ### `inet_pton`

It accepts the text forms of an address: groups of hexadecimal digits with colons between them, of which the last two can
be an IPv4 address, and two colons once for one or more groups of zeros. -/

def hexGroup (group : Bytes) : Option (List UInt16) :=
  if group.length ≤ 4 then (toNumeric 16 16 group).map fun n => [UInt16.ofNat n] else none

/-- Four numbers from 0 to 255 in decimal digits. -/
def dottedGroups (group : Bytes) : Option (List UInt16) :=
  match group.splitOn 0x2e with
  | [a, b, c, d] =>
    let number (part : Bytes) : Option Nat :=
      if part.length > 1 ∧ part.head? = some 0x30 then none else toNumeric 8 10 part
    match number a, number b, number c, number d with
    | some a, some b, some c, some d => some [UInt16.ofNat (a * 256 + b), UInt16.ofNat (c * 256 + d)]
    | _, _, _, _ => none
  | _ => none

/-- The words of groups. -/
def wordsOfGroups : List Bytes → Option (List UInt16)
  | [] => some []
  | [group] => (hexGroup group).orElse fun _ => dottedGroups group
  | group :: groups => (hexGroup group).bind fun word => (wordsOfGroups groups).map (word ++ ·)

/-- The text in front of the first two colons and behind them. -/
def cutAtColons : Bytes → Option (Bytes × Bytes)
  | [] => none
  | ch :: text =>
    if ch = 0x3a ∧ text.head? = some 0x3a then some ([], text.drop 1)
    else (cutAtColons text).map fun (front, behind) => (ch :: front, behind)

def groups (text : Bytes) : List Bytes := if text = [] then [] else text.splitOn 0x3a

/-- `inet_pton` for IPv6. -/
def inetPton (text : Bytes) : Option Ipv6 :=
  let address (words : List UInt16) : Option Ipv6 := if h : words.length = 8 then some ⟨words, h⟩ else none
  match cutAtColons text with
  | none => (wordsOfGroups (groups text)).bind address
  | some (front, behind) =>
    -- an IPv4 address can be at the end only
    match (groups front).mapM hexGroup, wordsOfGroups (groups behind) with
    | some front, some behind =>
      let front := front.flatten
      if front.length + behind.length ≤ 7 then
        address (front ++ List.replicate (8 - (front.length + behind.length)) 0 ++ behind)
      else none
    | _, _ => none

/-- `ipv6::from_string`: the text is copied and ends with its first zero byte. -/
def Ipv6.ofText (text : Bytes) : Option Ipv6 :=
  if text.length > 100 then none else inetPton (text.takeWhile (· ≠ 0))

/-! ## The addresses of a URL (the class `url` of include/rad/net/url/url.h)

There is no value where the source throws an exception. -/

inductive IpAddress where
  | ipv4 (address : Ipv4)
  | ipv6 (address : Ipv6)
  deriving DecidableEq

structure Endpoint where
  address : IpAddress
  port : UInt16
  deriving DecidableEq

namespace UrlRecord

def isHostIpv4 (url : UrlRecord) : Bool := url.flags.ipv4Host

def isHostIpv6 (url : UrlRecord) : Bool := url.flags.ipv6Host

def hostIpv4 (url : UrlRecord) : Option Ipv4 := Ipv4.ofText url.host

def hostIpv6 (url : UrlRecord) : Option Ipv6 := Ipv6.ofText url.host

def makeEndpoint (url : UrlRecord) : Option Endpoint :=
  if url.isHostIpv4 then url.hostIpv4.map fun address => ⟨.ipv4 address, url.portNumber⟩
  else url.hostIpv6.map fun address => ⟨.ipv6 address, url.portNumber⟩

end UrlRecord

/-! ## Code points of hosts (`parse_host` of src/net/url/url.cpp) -/

def isC0Control (c : Nat) : Bool := c ≤ 0x1f

def isAsciiUppercaseAlpha (cp : Nat) : Bool := 0x41 ≤ cp && cp ≤ 0x5a

def isAsciiLowercaseAlpha (cp : Nat) : Bool := 0x61 ≤ cp && cp ≤ 0x7a

def isAsciiAlpha (cp : Nat) : Bool := isAsciiLowercaseAlpha cp || isAsciiUppercaseAlpha cp

def isAsciiNumeric (c : Nat) : Bool := 0x30 ≤ c && c ≤ 0x39

def isAsciiAlphanumeric (c : Nat) : Bool := isAsciiAlpha c || isAsciiNumeric c

def getAsciiLowercase (c : Nat) : UInt8 := if isAsciiUppercaseAlpha c then UInt8.ofNat (c - 0x41 + 0x61) else UInt8.ofNat c

def isHexDigit (c : UInt8) : Bool := isAsciiNumeric c.toNat || (0x61 ≤ c && c ≤ 0x66) || (0x41 ≤ c && c ≤ 0x46)

def startsWithTwoHexDigits (input : Bytes) : Bool := input.length ≥ 2 && (input.take 2).all isHexDigit

def forbiddenHostCodePoints : List Nat :=
  [0, 0x09, 0x0a, 0x0d, 0x20, 0x23, 0x2f, 0x3a, 0x3c, 0x3e, 0x3f, 0x40, 0x5b, 0x5d, 0x5c, 0x5e, 0x7c]

def isForbiddenHostCodePoint (c : Nat) : Bool := forbiddenHostCodePoints.contains c

def isForbiddenDomainCodePoint (c : Nat) : Bool :=
  isForbiddenHostCodePoint c || isC0Control c || c == 0x25 || c == 0x7f

def containsForbiddenDomainCodePoint (input : Bytes) : Bool :=
  match _h : utf8DecodeUnchecked input with
  | some (c, rest) => isForbiddenDomainCodePoint c || containsForbiddenDomainCodePoint rest
  | none => false
termination_by input.length
decreasing_by exact utf8DecodeUnchecked_lt _h

/-! ## Hosts -/

/-- The loop of `parse_opaque_host`; its other checks are no errors. -/
def containsForbiddenHostCodePoint (input : Bytes) : Bool :=
  match _h : utf8DecodeUnchecked input with
  | some (c, rest) =>
    if isForbiddenHostCodePoint c then true
    else if c = 0x25 ∧ startsWithTwoHexDigits rest = true then containsForbiddenHostCodePoint (rest.drop 2)
    else containsForbiddenHostCodePoint rest
  | none => false
termination_by input.length
decreasing_by
  · exact Nat.lt_of_le_of_lt (List.drop_sublist 2 rest).length_le (utf8DecodeUnchecked_lt _h)
  · exact utf8DecodeUnchecked_lt _h

/-- `percent_encode` with one of the sets of the parser. -/
def percentEncodeSet (encodeSet : List PerecentEncodeSetItem) (input : Bytes) : Except UrlError Bytes :=
  (percentEncode (isUnreservedCharacterSet encodeSet) input).mapError fun _ => .percentEncoding

def parseOpaqueHost (input : Bytes) : Except UrlError Bytes :=
  if input = [] then .ok []
  else if containsForbiddenHostCodePoint input then .error .hostInvalidCodePoint
  else percentEncodeSet c0ControlPercentEncodeSet input

/-- `url_domain_to_ascii` with `be_strict` false. -/
def urlDomainToAscii (domain : Bytes) : Except UrlError Bytes :=
  match Idna.domainToAscii false domain with
  | .error _ => .error .domainToAscii
  | .ok domain =>
    if domain = [] then .error .domainToAscii
    else if containsForbiddenDomainCodePoint domain then .error .domainInvalidCodePoint
    else .ok domain

/-- The host that a text stands for. -/
def parseHostText (input : Bytes) (isOpaque : Bool) : Except UrlError (Bytes × UrlRecord.HostKind) :=
  if input = [] then .ok ([], .empty)
  else if input.head? = some 0x5b then
    if input.length = 1 ∨ input.getLast? ≠ some 0x5d then .error .ipv6Unclosed
    else
      match Ipv6.ofText (input.drop 1).dropLast with
      | none => .error .ipv6Invalid
      | some address => .ok (urlSerializeIpv6 address, .ipv6)
  else if isOpaque then (parseOpaqueHost input).map (·, .opaqueText)
  else
    -- a text that cannot be decoded is left as it is
    let domain := (percentDecode input).toOption.getD input
    (urlDomainToAscii domain).bind fun domain =>
      if urlDomainEndsInNumber domain then (parseUrlIpv4Host domain).map (·.toText, .ipv4)
      else .ok (domain, .domain)

/-- `parse_host`. -/
def parseHost (input : Bytes) (isOpaque : Bool) (url : UrlRecord) : Except UrlError UrlRecord :=
  (parseHostText input isOpaque).map fun (host, kind) => { url.setHostFlag kind with host := host }

end Rad.Url
