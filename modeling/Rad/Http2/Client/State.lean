import Rad.Hpack.Decoder
import Rad.Http2.Frame

/-!
# The state of the HTTP/2 client (include/rad/net/http2/http2_client.h)

The fields that the frame parser reads and writes. `rbuf_` is the queue of the bytes that it holds. The lists of streams
are intrusive lists of objects that belong to the coroutines of the requests: a closed stream leaves `open_streams_`, and
its object is kept in `closedStreams` as the request finds it. Events, timers and the transport are left out.
-/

namespace Rad.Http2

open Hpack Http

/-! ## Errors -/

/-- `http2::error`. The peer may send a value without an enumerator. -/
inductive Error where
  | noError
  | protocolError
  | internalError
  | flowControlError
  | settingsTimeout
  | streamClosed
  | frameSizeError
  | refusedStream
  | cancel
  | compressionError
  | connectError
  | enhanceYourCalm
  | inadequateSecurity
  | http11Required
  | unknown (value : Nat)
  deriving DecidableEq, Repr

namespace Error

def value : Error → Nat
  | noError => 0
  | protocolError => 1
  | internalError => 2
  | flowControlError => 3
  | settingsTimeout => 4
  | streamClosed => 5
  | frameSizeError => 6
  | refusedStream => 7
  | cancel => 8
  | compressionError => 9
  | connectError => 10
  | enhanceYourCalm => 11
  | inadequateSecurity => 12
  | http11Required => 13
  | unknown value => value

/-- `error_category_impl::message`. -/
def message : Error → Bytes
  | noError => ascii "No Error"
  | protocolError => ascii "The endpoint detected an unspecific protocol error"
  | internalError => ascii "The endpoint encountered an unexpected internal error"
  | flowControlError => ascii "The endpoint detected that its peer violated the flow-control protocol"
  | settingsTimeout =>
    ascii "The endpoint sent a SETTINGS frame but did not receive a response in a timely manner"
  | streamClosed => ascii "The endpoint received a frame after a stream was half-closed"
  | frameSizeError => ascii "The endpoint received a frame with an invalid size"
  | refusedStream => ascii "The endpoint refused the stream prior to performing any application processing"
  | cancel => ascii "The stream is no longer needed"
  | compressionError =>
    ascii "The endpoint is unable to maintain the field section compression context for the connection"
  | connectError =>
    ascii "The connection established in response to a CONNECT request was reset or abnormally closed"
  | enhanceYourCalm =>
    ascii "The endpoint detected that its peer is exhibiting a behavior that might be generating excessive load"
  | inadequateSecurity =>
    ascii "The underlying transport has properties that do not meet minimum security requirements"
  | http11Required => ascii "The endpoint requires that HTTP/1.1 be used instead of HTTP/2"
  | unknown _ => ascii "unknown http2 error"

/-- The cast from `uint32_t`, to the underlying type `uint16_t`. -/
def ofCode (code : Nat) : Error :=
  match code % 2 ^ 16 with
  | 0 => noError
  | 1 => protocolError
  | 2 => internalError
  | 3 => flowControlError
  | 4 => settingsTimeout
  | 5 => streamClosed
  | 6 => frameSizeError
  | 7 => refusedStream
  | 8 => cancel
  | 9 => compressionError
  | 10 => connectError
  | 11 => enhanceYourCalm
  | 12 => inadequateSecurity
  | 13 => http11Required
  | value => unknown value

end Error

/-- `std::error_code::operator bool`: a code with the value zero is no error. -/
def failed : Option Error → Bool
  | none => false
  | some ec => ec.value != 0

/-! ## Settings -/

/-- `setting_value`, with the id as its number. -/
structure SettingValue where
  id : Nat
  value : Nat
  deriving DecidableEq, Repr

def SettingValue.neededWriteSize : Nat := 6

/-- `setting_value_buffer::get_setting_value`. -/
def SettingValue.ofBuffer (buff : Bytes) : SettingValue where
  id := Lib.ofBigEndian (buff.take 2)
  value := Lib.ofBigEndian ((buff.drop 2).take 4)

/-- The values of a `settings_frame`. -/
abbrev SettingsFrame := List SettingValue

/-! ## Streams -/

inductive StreamState where
  | idle
  | «open»
  | halfClosedLocal
  | halfClosedRemote
  | closed
  deriving DecidableEq, Repr

structure Stream where
  method : Verb := .invalid
  path : Bytes := []
  hdrs : Headers := []
  body : Bytes := []
  res : Response := {}
  resBuff : Bytes := []
  rstEc : Option Error := none
  id : Nat := 0
  windowSize : Int := 0
  receivedData : Nat := 0
  receivedContinuations : Nat := 0
  state : StreamState := .idle
  wantsHeaders : Bool := true
  receivedFinalRes : Bool := false
  receivedTrailers : Bool := false
  deriving DecidableEq

namespace Stream

def isHalfClosedLocal (s : Stream) : Bool := s.state = .halfClosedLocal

def isHalfClosedRemote (s : Stream) : Bool := s.state = .halfClosedRemote

def isClosed (s : Stream) : Bool := s.state = .closed

/-- `send_H`. -/
def sendH (s : Stream) : Stream := { s with state := .open }

/-- `send_ES`. -/
def sendES (s : Stream) : Stream := { s with state := if s.state = .open then .halfClosedLocal else .closed }

/-- `recv_ES`. -/
def recvES (s : Stream) : Stream := { s with state := if s.state = .open then .halfClosedRemote else .closed }

/-- `restart`, for a request that is redirected. -/
def restart (s : Stream) : Stream :=
  { s with
    res := s.res.clear, rstEc := none, id := 0, state := .idle, wantsHeaders := true, receivedFinalRes := false
    receivedTrailers := false }

def getContentLength (s : Stream) : Option Nat :=
  if s.res.getContentLength = [] then none
  else
    match toUint64 s.res.getContentLength with
    | (length, true) => some length
    | (_, false) => none

end Stream

/-! ## The parser stage -/

/-- `parser_frame_payload_stage`. -/
structure PayloadStage where
  totalSize : Nat := 0
  minReadSize : Nat := 0
  consumedSize : Nat := 0
  padding : UInt8 := 0
  deriving DecidableEq, Repr

inductive ParserStage where
  | header
  | payload (stage : PayloadStage)
  deriving DecidableEq, Repr

/-! ## The client -/

/-- The size of `read_buff_`. -/
def readBuffSize : Nat := 2 ^ 16 - 1

def minAllowedWindowSize : Int := 16 * 1024

def maxFlowControlWindowSize : Nat := 2 ^ 31 - 1

def defaultClientWindowSize : Int := (2 ^ 31 - 1) / 2

structure Client where
  lastClientId : Nat := 0
  lastServerId : Nat := 0
  lastPingOpaqueData : Nat := 1
  pendingSettingsAcks : Nat := 0
  windowSize : Int := defaultClientWindowSize
  selfStreamsInitialWindowSize : Nat := 16 * 1024
  selfMaxPayloadSize : Nat := 2 ^ 14
  peerMaxPayloadSize : Nat := 2 ^ 14
  peerMaxConcurrentStreams : Nat := 2 ^ 32 - 1
  selfMaxHeaderListSize : Nat := 2 ^ 32 - 1
  peerMaxHeaderListSize : Nat := 2 ^ 32 - 1
  selfMaxContinuationFrames : Nat := 8
  maxBodySize : Nat := 2 ^ 64 - 1
  toSendGoawayEc : Option Error := none
  rbufExhausted : Bool := false
  receivedConnectionSettings : Bool := false
  receivedConnectionSettingsAck : Bool := false
  stopped : Bool := false
  closedAStream : Bool := false
  receivedGoaway : Bool := false
  parserStage : ParserStage := .header
  lastHeader : Option FrameHeader := none
  idleStreams : List Stream := []
  openStreams : List Stream := []
  closedStreams : List Stream := []
  pendingPings : List (Nat × Bool) := []
  wantedPingsAcks : List Nat := []
  pendingRstStreams : List (Nat × Error) := []
  pendingAckSettings : List SettingsFrame := []
  pendingSendSettings : Option SettingsFrame := none
  rbuf : Bytes := []
  hpackReadBuff : Bytes := []
  hencoder : HpackEncoder := {}
  hdecoder : HpackDecoder := {}
  goawayReason : Bytes := []

namespace Client

def streamIds (c : Client) : List Nat := c.openStreams.map Stream.id

/-- `open_streams_.find` by the stream id. -/
def findStream (c : Client) (id : Nat) : Option Stream := c.openStreams.find? (·.id == id)

/-- A change of the stream that `findStream` finds. -/
def modifyStream (c : Client) (id : Nat) (f : Stream → Stream) : Client :=
  { c with openStreams := c.openStreams.modify (c.openStreams.findIdx (·.id == id)) f }

/-- `close_open_stream` for the stream that `findStream` finds. -/
def closeOpenStream (c : Client) (id : Nat) (ec : Option Error) (sendRst : Bool) : Client :=
  match c.findStream id with
  | none => c
  | some s =>
    { c with
      closedAStream := true
      openStreams := c.openStreams.eraseIdx (c.openStreams.findIdx (·.id == id))
      closedStreams := c.closedStreams ++ [{ s with rstEc := ec, state := .closed }]
      pendingRstStreams := if sendRst then c.pendingRstStreams ++ [(s.id, ec.getD .noError)] else c.pendingRstStreams }

end Client

end Rad.Http2
