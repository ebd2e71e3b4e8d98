import Rad.Http.Message
import Rad.Hpack.Codec
import Rad.Lib.Blocks

/-!
# HTTP/2 frames (include/rad/net/http2/http2_parser.h, src/net/http2/http2_parser.cpp)

The frame header, its nine bytes on the wire and the checks that a received one has to pass.
-/

namespace Rad.Http2

open Http Lib Hpack

/-- The maximum payload size, `2 ^ 24 - 1`. -/
def maxPayloadSize : Nat := 2 ^ 24 - 1

/-- `http2::min_payload_size`, the initial value of the maximum frame size. -/
def minPayloadSize : Nat := 2 ^ 14

def maxStreamId : Nat := 2 ^ 31 - 1

/-- `frame_type`. A received byte that is no enumerator stays what it is. -/
inductive FrameType where
  | data
  | headers
  | priority
  | rstStream
  | settings
  | pushPromise
  | ping
  | goaway
  | windowUpdate
  | continuation
  | unknown (value : UInt8)
  deriving DecidableEq, Repr

namespace FrameType

/-- The cast to `uint8_t`. -/
def toByte : FrameType → UInt8
  | data => 0
  | headers => 1
  | priority => 2
  | rstStream => 3
  | settings => 4
  | pushPromise => 5
  | ping => 6
  | goaway => 7
  | windowUpdate => 8
  | continuation => 9
  | unknown value => value

/-- The cast from `uint8_t`. -/
def ofByte (b : UInt8) : FrameType :=
  match b with
  | 0 => data
  | 1 => headers
  | 2 => priority
  | 3 => rstStream
  | 4 => settings
  | 5 => pushPromise
  | 6 => ping
  | 7 => goaway
  | 8 => windowUpdate
  | 9 => continuation
  | value => unknown value

end FrameType

def endStreamFlag : UInt8 := 0x1

def settingsAckFlag : UInt8 := 0x1

def pingAckFlag : UInt8 := 0x1

def endHeadersFlag : UInt8 := 0x4

def paddedFlag : UInt8 := 0x8

def priorityFlag : UInt8 := 0x20

/-- `(flags & FLAG) == FLAG`. -/
def hasFlag (flags flag : UInt8) : Bool := flags &&& flag == flag

structure FrameHeader where
  length : Nat := 0
  streamId : Nat := 0
  type : FrameType := .data
  flags : UInt8 := 0
  deriving DecidableEq, Repr

namespace FrameHeader

/-! ## On the wire -/

def neededWriteSize : Nat := 9

/-- `frame_header_buffer(fh)`: the length is shifted by one byte, and the type overwrites the byte that this leaves. -/
def buffer (fh : FrameHeader) : Bytes :=
  (toBigEndian 4 (fh.length * 2 ^ 8)).take 3 ++ [fh.type.toByte, fh.flags] ++ toBigEndian 4 (fh.streamId % 2 ^ 31)

/-- `frame_header_buffer::get_frame_header`. -/
def ofBuffer (buff : Bytes) : FrameHeader where
  length := ofBigEndian (buff.take 4) / 2 ^ 8
  streamId := ofBigEndian ((buff.drop 5).take 4) % 2 ^ 31
  type := .ofByte (buff.getD 3 0)
  flags := buff.getD 4 0

/-- `write_to_buffer`: the bytes that are written to a buffer with `room` bytes. -/
def writeToBuffer (fh : FrameHeader) (room : Nat) : Bytes := if room < neededWriteSize then [] else fh.buffer

/-! ## The checks -/

def minPayloadSize (fh : FrameHeader) : Nat :=
  match fh.type with
  | .priority => 5
  | .rstStream => 4
  | .settings => if hasFlag fh.flags settingsAckFlag then 0 else 6
  | .ping => 8
  | .goaway => 8
  | .windowUpdate => 4
  | .data | .headers | .pushPromise | .continuation | .unknown _ => 0

def isValidType (fh : FrameHeader) (fromClient pushAllowed : Bool) : Bool :=
  if fh.type = .pushPromise then !fromClient && pushAllowed else fh.type.toByte ≤ 9

def isValidSize (fh : FrameHeader) (maxFramePayloadSize : Nat) : Bool :=
  let isPadded := hasFlag fh.flags paddedFlag
  let isPriority := hasFlag fh.flags priorityFlag
  if fh.length > maxPayloadSize || fh.length > maxFramePayloadSize then false
  else
    match fh.type with
    | .settings => if hasFlag fh.flags settingsAckFlag then fh.length == 0 else fh.length % 6 == 0
    | .priority => fh.length == 5
    | .rstStream | .windowUpdate => fh.length == 4
    | .ping => fh.length == 8
    | .goaway => fh.length ≥ 8
    | .headers => fh.length > (if isPadded then 1 else 0) + (if isPriority then 5 else 0)
    | .data => fh.length ≥ if isPadded then 1 else 0
    | .pushPromise | .continuation | .unknown _ => true

def isValidFlags (fh : FrameHeader) : Bool :=
  let allFramesFlags := endStreamFlag ||| endHeadersFlag ||| priorityFlag ||| paddedFlag ||| pingAckFlag
  fh.flags &&& ~~~allFramesFlags == 0

def isConnectionFrame (fh : FrameHeader) : Bool :=
  fh.type = .settings || fh.type = .ping || fh.type = .goaway

def isStreamFrame (fh : FrameHeader) : Bool :=
  fh.type = .data || fh.type = .headers || fh.type = .continuation || fh.type = .rstStream || fh.type = .priority ||
    fh.type = .pushPromise

def mayBeSentToClosedStream (fh : FrameHeader) : Bool :=
  fh.type = .priority || fh.type = .windowUpdate || fh.type = .rstStream

def mayBeSentToHalfClosedRemoteStream (fh : FrameHeader) : Bool :=
  fh.type = .priority || fh.type = .windowUpdate || fh.type = .rstStream

/-- `is_valid_stream_id`. The next identifier is computed in 32 bits. -/
def isValidStreamId (fh : FrameHeader) (fromClient : Bool) (lastClientId lastServerId : Nat) : Bool :=
  if fh.streamId = 0 then !fh.isStreamFrame
  else if fh.isConnectionFrame then false
  else if fh.streamId > maxStreamId then false
  else
    let isNewId := (fromClient && fh.type = .headers) || (!fromClient && fh.type = .pushPromise)
    let lastId := if fromClient then lastServerId else lastClientId
    if isNewId then
      let nextId := (lastId + 2) % 2 ^ 32
      if nextId > fh.streamId || nextId < lastId then false
      else if fh.streamId ≠ nextId then false
      else (fh.streamId % 2 ≠ 0) == fromClient
    else !(fh.streamId > lastId)

def isValidFrame (fh : FrameHeader) (previousHeader : Option FrameHeader) (maxFramePayloadSize : Nat)
    (pushAllowed fromClient : Bool) (lastClientId lastServerId : Nat) : Bool :=
  if !fh.isValidType fromClient pushAllowed then false
  else if !fh.isValidFlags then false
  else if !fh.isValidSize maxFramePayloadSize then false
  else if !fh.isValidStreamId fromClient lastClientId lastServerId then false
  else
    match previousHeader with
    -- the first frame must be a settings frame
    | none => fh.type = .settings
    | some previous =>
      if !hasFlag previous.flags endHeadersFlag && (previous.type = .headers || previous.type = .continuation) then
        fh.type = .continuation && fh.streamId = previous.streamId
      else !(fh.type = .continuation)

end FrameHeader

/-! ## The frames of a request's header block (src/net/http2/http2_parser.cpp)

`frames_buffs` is a list of pairs: the buffer of a frame header and the buffer of its payload, each as the bytes that it
points to in `write_buff`. Assertions are left out, as in a release build.
-/

def framesCount (blockSize maxHeadersBlockSize : Nat) : Nat :=
  blockSize / maxHeadersBlockSize + if blockSize % maxHeadersBlockSize ≠ 0 then 1 else 0

/-- `insert_header_and_payload`, with `room` bytes left for the frame headers. -/
def insertHeaderAndPayload (fh : FrameHeader) (room : Nat) (hpackBuff : Bytes) : Bytes × Bytes :=
  (fh.writeToBuffer room, hpackBuff.take fh.length)

/-- The loop over the rest of the block. -/
def continuationFrames (id maxHeadersBlockSize : Nat) (hpos : 0 < maxHeadersBlockSize) (room : Nat) (hpackBuff : Bytes) :
    List (Bytes × Bytes) :=
  if hpackBuff = [] then []
  else
    let writeSize := min maxHeadersBlockSize hpackBuff.length
    let lastContinuation := writeSize == hpackBuff.length
    let fh : FrameHeader := {
      streamId := id, type := .continuation, flags := if lastContinuation then endHeadersFlag else 0, length := writeSize }
    insertHeaderAndPayload fh room hpackBuff ::
      continuationFrames id maxHeadersBlockSize hpos (room - (fh.writeToBuffer room).length) (hpackBuff.drop writeSize)
termination_by hpackBuff.length
decreasing_by
  have := List.length_pos_iff.2 ‹¬hpackBuff = []›
  rw [List.length_drop]; omega

/-- The frames of a block, once it is encoded. -/
def blockFrames (id maxHeadersBlockSize : Nat) (hpos : 0 < maxHeadersBlockSize) (emptyBody : Bool) (block : Bytes) :
    List (Bytes × Bytes) :=
  if block.length < maxHeadersBlockSize then
    let fh : FrameHeader := {
      streamId := id, type := .headers, length := block.length,
      flags := if emptyBody then endHeadersFlag ||| endStreamFlag else endHeadersFlag }
    [(fh.buffer, block)]
  else
    let room := framesCount block.length maxHeadersBlockSize * FrameHeader.neededWriteSize
    let fh : FrameHeader := {
      streamId := id, type := .headers, flags := if emptyBody then endStreamFlag else 0, length := maxHeadersBlockSize }
    insertHeaderAndPayload fh room block ::
      continuationFrames id maxHeadersBlockSize hpos (room - (fh.writeToBuffer room).length)
        (block.drop maxHeadersBlockSize)

/-- The flags that the client encodes its requests with. -/
def requestFlags : Flags := { indexed := true, huffman := true, neverIndexed := false }

def makeHeadersContinuationsFrames (id : Nat) (method : Verb) (path : Bytes) (hdrs : Headers) (emptyBody : Bool)
    (maxHeadersBlockSize : Nat) (hencoder : HpackEncoder) : List (Bytes × Bytes) × HpackEncoder :=
  let encoded := hencoder.encodeRequest method path hdrs requestFlags
  (blockFrames id (max maxHeadersBlockSize 1) (by omega) emptyBody encoded.1, encoded.2)

/-! ## Checks on header lists (src/net/http2/http2_parser.cpp) -/

/-- A plain `char`, which is signed on the supported targets. -/
def charValue (b : UInt8) : Int := if b < 0x80 then b.toNat else b.toNat - 256

/-- The test that a character of a header name is not allowed. -/
def badNameChar (ch : Int) : Bool := (0 ≤ ch && ch ≤ 0x20) || (0x41 ≤ ch && ch ≤ 0x5a) || 0x7f ≤ ch

def validateHeaderField (field : Bytes) : Bool :=
  if field = [] then false
  else if (field.map charValue).any badNameChar then false
  else if (field.drop 1).any (· == 0x3a) then false
  else if (ascii "connection-").isPrefixOf field || field == ascii "connection" then false
  else !(field == ascii "proxy-connection" || field == ascii "keep-alive" || field == ascii "transfer-encoding" ||
    field == ascii "upgrade")

def validateHeaderValue (value : Bytes) : Bool :=
  if value = [] then true
  else if value.head? == some 0x20 || value.getLast? == some 0x20 then false
  else if value.head? == some 0x09 || value.getLast? == some 0x09 then false
  else !value.any fun ch => ch == 0 || ch == 0x0a || ch == 0x0d

def validateHeader (field value : Bytes) : Bool := validateHeaderField field && validateHeaderValue value

def validateHeaders (hdrs : Headers) : Bool := hdrs.all fun header => validateHeader header.1 header.2

/-- `get_header_list_size`, in 32 bits. -/
def getHeaderListSize (hdrs : Headers) : Nat :=
  (hdrs.length * 32 + (hdrs.map fun header => header.1.length + header.2.length).sum) % 2 ^ 32

end Rad.Http2
