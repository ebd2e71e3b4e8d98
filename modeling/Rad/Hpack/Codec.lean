import Rad.Text.Ascii
import Rad.RingBuffer.Basic
import Rad.Hpack.Integer
import Rad.Hpack.Huffman
import Rad.Http.Message

/-!
# The HPACK encoder and decoder (src/net/http2/hpack.cpp)

An encoding function returns the bytes that it appends to the output buffer and the dynamic table afterwards. A decoding
function returns the count of consumed bytes with its results, or the error.
-/

namespace Rad.Hpack

open Lib Http

/-! ## The HPACK tables (src/net/http2/hpack.cpp, include/rad/net/http2/hpack.h)

The static table of predefined headers, and `dynamic_table`. Sizes are `size_t`; they count bytes that exist in memory,
so their sums do not wrap.
-/

/-! ## The static table -/

def predefinedHttp2Headers : List (Bytes × Bytes) := [
    (ascii ":authority", ascii ""), (ascii ":method", ascii "GET"), (ascii ":method", ascii "POST"),
    (ascii ":path", ascii "/"), (ascii ":path", ascii "/index.html"), (ascii ":scheme", ascii "http"),
    (ascii ":scheme", ascii "https"), (ascii ":status", ascii "200"), (ascii ":status", ascii "204"),
    (ascii ":status", ascii "206"), (ascii ":status", ascii "304"), (ascii ":status", ascii "400"),
    (ascii ":status", ascii "404"), (ascii ":status", ascii "500"), (ascii "accept-charset", ascii ""),
    (ascii "accept-encoding", ascii "gzip, deflate"), (ascii "accept-language", ascii ""),
    (ascii "accept-ranges", ascii ""), (ascii "accept", ascii ""),
    (ascii "access-control-allow-origin", ascii ""), (ascii "age", ascii ""), (ascii "allow", ascii ""),
    (ascii "authorization", ascii ""), (ascii "cache-control", ascii ""),
    (ascii "content-disposition", ascii ""), (ascii "content-encoding", ascii ""),
    (ascii "content-language", ascii ""), (ascii "content-length", ascii ""),
    (ascii "content-location", ascii ""), (ascii "content-range", ascii ""), (ascii "content-type", ascii ""),
    (ascii "cookie", ascii ""), (ascii "date", ascii ""), (ascii "etag", ascii ""), (ascii "expect", ascii ""),
    (ascii "expires", ascii ""), (ascii "from", ascii ""), (ascii "host", ascii ""),
    (ascii "if-match", ascii ""), (ascii "if-modified-since", ascii ""), (ascii "if-none-match", ascii ""),
    (ascii "if-range", ascii ""), (ascii "if-unmodified-since", ascii ""), (ascii "last-modified", ascii ""),
    (ascii "link", ascii ""), (ascii "location", ascii ""), (ascii "max-forwards", ascii ""),
    (ascii "proxy-authenticate", ascii ""), (ascii "proxy-authorization", ascii ""), (ascii "range", ascii ""),
    (ascii "referer", ascii ""), (ascii "refresh", ascii ""), (ascii "retry-after", ascii ""),
    (ascii "server", ascii ""), (ascii "set-cookie", ascii ""), (ascii "strict-transport-security", ascii ""),
    (ascii "transfer-encoding", ascii ""), (ascii "user-agent", ascii ""), (ascii "vary", ascii ""),
    (ascii "via", ascii ""), (ascii "www-authenticate", ascii "")]

def findPredefinedHttp2Header (name value : Bytes) : Option Nat :=
  (predefinedHttp2Headers.findIdx? fun header => iequal header.1 name && iequal header.2 value).map (· + 1)

def findPredefinedHttp2Name (name : Bytes) : Option Nat :=
  (predefinedHttp2Headers.findIdx? fun header => iequal header.1 name).map (· + 1)

/-! ## The dynamic table -/

structure DynamicTable where
  headers : RingBuffer (Bytes × Bytes) := RingBuffer.null
  maxSize : Nat := 0
  headersSize : Nat := 0
  deriving DecidableEq

/-- The size of an entry. -/
def headerSize (header : Bytes × Bytes) : Nat := 32 + header.1.length + header.2.length

namespace DynamicTable

theorem count_popFront (b : RingBuffer (Bytes × Bytes)) : b.popFront.count = b.count - 1 := by
  simp only [RingBuffer.popFront, RingBuffer.resetIfEmpty]
  split <;> rfl

def removeSize (t : DynamicTable) (n : Nat) : DynamicTable :=
  if n > 0 then
    if h : t.headers.empty then t
    else
      have : t.headers.popFront.count < t.headers.count := by
        rw [count_popFront]; simp [RingBuffer.empty, RingBuffer.size] at h; omega
      let size := headerSize (t.headers.popFrontValue.1.getD ([], []))
      removeSize { t with
        headers := t.headers.popFrontValue.2, headersSize := t.headersSize - min t.headersSize size } (n - min n size)
  else t
termination_by t.headers.count

def setMaxSize (t : DynamicTable) (n : Nat) : DynamicTable :=
  if n = 0 then { headers := t.headers.clear, maxSize := 0, headersSize := 0 }
  else
    let t := { t with maxSize := n }
    if n < t.headersSize then t.removeSize (t.headersSize - n) else t

def add (t : DynamicTable) (name value : Bytes) : DynamicTable :=
  let size := headerSize (name, value)
  if size > t.maxSize then { t with headers := t.headers.clear, headersSize := 0 }
  else
    let t := if t.headersSize + size > t.maxSize then t.removeSize (t.headersSize + size - t.maxSize) else t
    let headers := if t.headers.full then t.headers.setCapacity (max (t.headers.capacity * 2) 1) else t.headers
    { t with headers := headers.emplaceBack (name, value), headersSize := t.headersSize + size }

/-- The index of the entry that an iterator of `headers_` points at. -/
def indexOf (t : DynamicTable) (it : Nat) : Nat :=
  t.headers.size - (t.headers.pointerToIndex (some it) - t.headers.pointerToIndex t.headers.begin) + 61

/-- `find(name, value)`. -/
def find (t : DynamicTable) (name value : Bytes) : Option Nat :=
  (t.headers.findIf fun header => iequal name header.1 && value == header.2).map t.indexOf

/-- `find(name)`. -/
def findName (t : DynamicTable) (name : Bytes) : Option Nat :=
  (t.headers.findIf fun header => iequal name header.1).map t.indexOf

def getHeader (t : DynamicTable) (i : Nat) : Option (Bytes × Bytes) :=
  if i ≥ t.headers.size then none else t.headers.get (t.headers.size - i - 1)

end DynamicTable

/-! ## `hpack_encoder` -/

structure HpackEncoder where
  dynamicTable : DynamicTable := {}
  host : Bytes := []
  scheme : Bytes := []

def HpackEncoder.setMaxTableSize (e : HpackEncoder) (n : Nat) : HpackEncoder :=
  { e with dynamicTable := e.dynamicTable.setMaxSize n }

/-- The flags that every encoding function takes. -/
structure Flags where
  indexed : Bool := true
  huffman : Bool := false
  neverIndexed : Bool := false
  deriving DecidableEq

/-- `bits::assign<N>`: it only ever sets the bit. -/
def assignBit (n : Nat) (b : UInt8) (on : Bool) : UInt8 := b ||| UInt8.ofNat (on.toNat <<< n)

def encodeLengthString (text : Bytes) (huffman : Bool) : Bytes :=
  if text = [] then [0]
  else
    let text := if huffman then (encodeHuffman text (List.replicate (encodedHuffmanLen text) 0)).1 else text
    (hpackEncodeInteger 7 text.length).modifyHead (assignBit 7 · huffman) ++ text

def encodeNameIndex (indexed neverIndexed : Bool) (index : Nat) : Bytes :=
  if neverIndexed || !indexed then
    (hpackEncodeInteger 4 index).modifyHead fun b => assignBit 4 (b &&& 0x0f) neverIndexed
  else (hpackEncodeInteger 6 index).modifyHead fun b => (b &&& 0x7f) ||| 0x40

def encodeHeader (t : DynamicTable) (flags : Flags) (name value : Bytes) : Bytes × DynamicTable :=
  let existingIndex :=
    if flags.neverIndexed then none else (findPredefinedHttp2Header name value).or (t.find name value)
  match existingIndex with
  | some index => ((hpackEncodeInteger 7 index).modifyHead (· ||| 0x80), t)
  | none =>
    let existingIndex := (findPredefinedHttp2Name name).or (t.findName name)
    (encodeNameIndex flags.indexed flags.neverIndexed (existingIndex.getD 0) ++
      (if existingIndex.isNone then encodeLengthString (toLower name) flags.huffman else []) ++
      encodeLengthString value flags.huffman,
      if flags.indexed then t.add name value else t)

/-- `encode_header` for one header after the other. -/
def encodeHeaders (t : DynamicTable) (flags : Flags) : Headers → Bytes × DynamicTable
  | [] => ([], t)
  | hdr :: hdrs =>
    let first := encodeHeader t flags hdr.1 hdr.2
    let rest := encodeHeaders first.2 flags hdrs
    (first.1 ++ rest.1, rest.2)

/-- `encode(hdrs, out, indexed, huffman, never_indexed)`. -/
def HpackEncoder.encode (e : HpackEncoder) (hdrs : Headers) (flags : Flags) : Bytes × HpackEncoder :=
  let r := encodeHeaders e.dynamicTable flags hdrs
  (r.1, { e with dynamicTable := r.2 })

def trimSpaces (text : Bytes) : Bytes :=
  ((text.dropWhile (· == 0x20)).reverse.dropWhile (· == 0x20)).reverse

/-- The pieces that a cookie header is sent in. -/
def cookiePieces (value : Bytes) : List Bytes := ((value.splitOn 0x3b).map trimSpaces).filter (· ≠ [])

/-- The fields that one header of a request is sent as. -/
def headerFields (method : Verb) (hdr : Bytes × Bytes) : Headers :=
  if method = .connect && iequal hdr.1 hostField then []
  else if iequal hdr.1 cookieField then (cookiePieces hdr.2).map fun value => (cookieField, value)
  else [hdr]

/-- `auth_it` as an index. -/
def authorityIt (hdrs : Headers) : Option Nat := (hdrs.find (ascii ":authority")).or (hdrs.find hostField)

/-- The arguments of the calls of `encode_header` for a request, in order. -/
def requestFields (host scheme : Bytes) (method : Verb) (path : Bytes) (hdrs : Headers) : Headers :=
  let authIt := authorityIt hdrs
  let authority :=
    if method = .connect then []
    else
      match authIt.bind (hdrs[·]?) with
      | some hdr => [(ascii ":authority", hdr.2)]
      | none => if host ≠ [] then [(ascii ":authority", host)] else []
  let others := match authIt with
    | some it => hdrs.eraseIdx it
    | none => hdrs
  (ascii ":method", verbToString method) ::
    (if method ≠ .connect then [(ascii ":scheme", scheme), (ascii ":path", path)] else [(ascii ":authority", path)]) ++
    authority ++ others.flatMap (headerFields method)

/-- `encode(method, path, hdrs, out, indexed, huffman, never_indexed)`, and `encode(req, ...)`. -/
def HpackEncoder.encodeRequest (e : HpackEncoder) (method : Verb) (path : Bytes) (hdrs : Headers) (flags : Flags) :
    Bytes × HpackEncoder :=
  e.encode (requestFields e.host e.scheme method path hdrs) flags

/-- `encode(res_status, hdrs, out, indexed, huffman, never_indexed)`, and `encode(res, ...)`. -/
def HpackEncoder.encodeResponse (e : HpackEncoder) (resStatus : Nat) (hdrs : Headers) (flags : Flags) :
    Bytes × HpackEncoder :=
  let status := encodeHeader e.dynamicTable { flags with neverIndexed := false } (ascii ":status") (toDecimal resStatus)
  let r := encodeHeaders status.2 flags hdrs
  (status.1 ++ r.1, { e with dynamicTable := r.2 })

/-! ## `hpack_decoder` -/

structure HpackDecoder where
  dynamicTable : DynamicTable := {}
  scheme : Bytes := []

def HpackDecoder.setMaxTableSize (d : HpackDecoder) (n : Nat) : HpackDecoder :=
  { d with dynamicTable := d.dynamicTable.setMaxSize n }

/-- The count of consumed bytes and the text. -/
def decodeLengthString (input : Bytes) : Except Errc (Nat × Bytes) :=
  match input with
  | [] => .error .noBufferSpace
  | firstByte :: _ =>
    let huffman := firstByte &&& 128 != 0
    match hpackDecodeInteger 7 input with
    | none => .error .noBufferSpace
    | some (len, length) =>
      if length = 0 then .ok (len, [])
      else if (input.drop len).length < length then .error .noBufferSpace
      else
        let textData := (input.drop len).take length
        if !huffman then .ok (len + length, textData)
        else
          let decodeLen := decodedHuffmanLen textData
          if decodeLen = 0 then .error .invalidArgument
          else
            match decodeHuffman textData with
            | (_, some ec) => .error ec
            | (symbols, none) => .ok (len + length, overwrite (List.replicate decodeLen 0) 0 symbols)

/-- The header at a 1-based index of the static and the dynamic table. The decoder lowercases the names of the dynamic
one. -/
def headerAt (t : DynamicTable) (index : Nat) : Option (Bytes × Bytes) :=
  if index - 1 < predefinedHttp2Headers.length then predefinedHttp2Headers[index - 1]?
  else (t.getHeader (index - 1 - predefinedHttp2Headers.length)).map fun header => (toLower header.1, header.2)

/-- What `decode_header_name` finds. -/
structure NameRead where
  consumed : Nat
  name : Bytes
  indexed : Bool
  neverIndexed : Bool

def decodeHeaderName (t : DynamicTable) (input : Bytes) : Except Errc NameRead :=
  match input with
  | [] => .error .noBufferSpace
  | firstByte :: _ =>
    let indexed := firstByte &&& 64 != 0
    if !indexed && !(firstByte >>> 4 == 0 || firstByte >>> 4 == 1) then .error .invalidArgument
    else
      let neverIndexed := !indexed && firstByte >>> 4 == 1
      match hpackDecodeInteger (if indexed then 6 else 4) input with
      | none => .error .noBufferSpace
      | some (len, index) =>
        if index ≠ 0 then
          match headerAt t index with
          | some header => .ok ⟨len, header.1, indexed, neverIndexed⟩
          | none => .error .invalidArgument
        else
          match decodeLengthString (input.drop len) with
          | .error ec => .error ec
          | .ok (n, name) => .ok ⟨len + n, name, indexed, neverIndexed⟩

/-- What `decode_header` finds: a size update has an empty name and value. -/
structure HeaderRead where
  consumed : Nat
  name : Bytes
  value : Bytes
  table : DynamicTable

def decodeHeader (t : DynamicTable) (input : Bytes) : Except Errc HeaderRead :=
  match input with
  | [] => .error .noBufferSpace
  | firstByte :: _ =>
    if firstByte >>> 5 == 1 then
      match hpackDecodeInteger 5 input with
      | none => .error .noBufferSpace
      | some (len, newSize) =>
        if newSize > t.maxSize then .error .valueTooLarge else .ok ⟨len, [], [], t.setMaxSize newSize⟩
    else if firstByte &&& 128 != 0 then
      match hpackDecodeInteger 7 input with
      | none => .error .noBufferSpace
      | some (len, index) =>
        if index = 0 then .error .noBufferSpace
        else
          match headerAt t index with
          | some header => .ok ⟨len, header.1, header.2, t⟩
          | none => .error .invalidArgument
    else
      match decodeHeaderName t input with
      | .error ec => .error ec
      | .ok r =>
        match decodeLengthString (input.drop r.consumed) with
        | .error ec => .error ec
        | .ok (n, value) =>
          .ok ⟨r.consumed + n, r.name, value, if r.indexed && !r.neverIndexed then t.add r.name value else t⟩

end Rad.Hpack
