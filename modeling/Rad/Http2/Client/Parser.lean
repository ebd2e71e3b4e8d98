import Rad.Http2.Client.State
import Rad.Lib.Loop

/-!
# The frame parser of the HTTP/2 client (src/net/http2/http2_client.cpp)

A function of the source that sets `ec` returns the error, `none` when it leaves `ec` alone. `parse_frames` is a loop; one
pass of it is `parsePass`. Assertions are left out, as in a release build.
-/

namespace Rad.Http2

open Hpack Http Lib

/-- The subtraction of `size_t`. -/
def subSize (a b : Nat) : Nat := (a + (2 ^ 64 - b % 2 ^ 64)) % 2 ^ 64

/-- The addition of `size_t`. -/
def addSize (a b : Nat) : Nat := (a + b) % 2 ^ 64

/-- The value of an `int32_t` after a change. -/
def wrapInt32 (n : Int) : Int := n.bmod (2 ^ 32)

/-! ## Frame headers -/

def validFramesFlags : FrameType → UInt8
  | .data => paddedFlag ||| endStreamFlag
  | .headers => priorityFlag ||| paddedFlag ||| endHeadersFlag ||| endStreamFlag
  | .priority => 0
  | .rstStream => 0
  | .settings => settingsAckFlag
  | .pushPromise => paddedFlag ||| endHeadersFlag
  | .ping => pingAckFlag
  | .goaway => 0
  | .windowUpdate => 0
  | .continuation => endHeadersFlag
  | .unknown _ => 0

def copyEndStreamFlagFromHeadersToContinuation (lastHeader : Option FrameHeader) (newHeader : FrameHeader) :
    FrameHeader :=
  match lastHeader with
  | none => newHeader
  | some last =>
    if last.type ≠ .headers ∧ last.type ≠ .continuation then newHeader
    else if newHeader.type ≠ .continuation then newHeader
    else { newHeader with flags := newHeader.flags ||| (last.flags &&& endStreamFlag) }

namespace Client

/-- The end of `validate_frame_header` for a DATA frame. -/
def validateData (c : Client) (it : Stream) (header : FrameHeader) : Client :=
  let receivedData := (it.receivedData + header.length) % 2 ^ 64
  let c := c.modifyStream header.streamId fun s => { s with receivedData }
  if receivedData > c.maxBodySize then c.closeOpenStream header.streamId (some .frameSizeError) true
  else if it.getContentLength.any (receivedData > ·) then
    c.closeOpenStream header.streamId (some .frameSizeError) true
  else
    let c := c.modifyStream header.streamId fun s => { s with windowSize := wrapInt32 (s.windowSize - header.length) }
    { c with windowSize := wrapInt32 (c.windowSize - header.length) }

/-- `received_continuations` after a frame header. -/
def nextContinuations (it : Stream) (header : FrameHeader) : Nat :=
  if header.type = .continuation then (it.receivedContinuations + 1) % 2 ^ 32 else 0

/-- What a frame header changes of its stream: a HEADERS frame is awaited no longer, a further one has the trailers. -/
def noteHeader (c : Client) (it : Stream) (header : FrameHeader) : Client :=
  let isHeaders := header.type = .headers
  c.modifyStream header.streamId fun s => { s with
    receivedTrailers := s.receivedTrailers || (!s.wantsHeaders && isHeaders)
    wantsHeaders := s.wantsHeaders && !isHeaders
    receivedContinuations := nextContinuations it header }

/-- `validate_frame_header` for a stream that is open and not half closed by the server. -/
def validateOpenStream (c : Client) (it : Stream) (header : FrameHeader) : Client × Option Error :=
  let isHeaders := header.type = .headers
  if it.wantsHeaders && !isHeaders && header.type ≠ .rstStream && header.type ≠ .windowUpdate &&
      header.type ≠ .priority then (c, some .protocolError)
  else if !it.wantsHeaders && isHeaders && (!it.receivedFinalRes || it.receivedTrailers) then (c, some .protocolError)
  else if !it.wantsHeaders && isHeaders && !hasFlag header.flags endStreamFlag then (c, some .protocolError)
  else
    let c := c.noteHeader it header
    if nextContinuations it header > c.selfMaxContinuationFrames then (c, some .protocolError)
    else if isHeaders then ({ c with hpackReadBuff := [] }, none)
    else if header.type = .data then (c.validateData it header, none)
    else (c, none)

def validateFrameHeader (c : Client) (header : FrameHeader) : Client × Option Error :=
  if !header.isValidFrame c.lastHeader c.selfMaxPayloadSize false false c.lastClientId c.lastServerId then
    (c, some .protocolError)
  else if header.streamId = 0 then (c, none)
  else
    match c.findStream header.streamId with
    | none => if header.mayBeSentToClosedStream then (c, none) else (c, some .streamClosed)
    | some it =>
      if it.isHalfClosedRemote then
        if header.mayBeSentToHalfClosedRemoteStream then (c, none)
        else (c.closeOpenStream header.streamId (some .streamClosed) true, none)
      else c.validateOpenStream it header

end Client

/-! ## HEADERS and DATA payloads -/

/-- What a function that reads a part of a payload leaves behind: its result and error, `rbuf_`, the stage, and the bytes
that it writes to the sink. -/
structure PayloadRead where
  res : Bool
  ec : Option Error := none
  rbuf : Bytes
  payload : PayloadStage
  data : Bytes := []

def readPaddingLength (flags : UInt8) (rbuf : Bytes) (payload : PayloadStage) : PayloadRead :=
  if !hasFlag flags paddedFlag || payload.consumedSize ≥ 1 then { res := true, rbuf, payload }
  else
    match rbuf with
    | [] => { res := false, rbuf := [], payload }
    | padding :: rest =>
      let payload := { payload with padding, consumedSize := payload.consumedSize + 1 }
      if padding.toNat ≥ payload.totalSize then { res := false, ec := some .protocolError, rbuf := rest, payload }
      else { res := true, rbuf := rest, payload }

def priorityConsumedSize (flags : UInt8) : Nat := 5 + if hasFlag flags paddedFlag then 1 else 0

def readPriority (flags : UInt8) (rbuf : Bytes) (payload : PayloadStage) : PayloadRead :=
  if !hasFlag flags priorityFlag || payload.consumedSize ≥ priorityConsumedSize flags then { res := true, rbuf, payload }
  else if rbuf.length < 5 then { res := false, rbuf, payload }
  else { res := true, rbuf := rbuf.drop 5, payload := { payload with consumedSize := payload.consumedSize + 5 } }

def dataLen (flags : UInt8) (payload : PayloadStage) : Nat :=
  subSize (subSize payload.totalSize (if hasFlag flags paddedFlag then 1 + payload.padding.toNat else 0))
    (if hasFlag flags priorityFlag then 5 else 0)

def consumedData (flags : UInt8) (payload : PayloadStage) : Nat :=
  subSize (subSize payload.consumedSize (if hasFlag flags paddedFlag then 1 else 0))
    (if hasFlag flags priorityFlag then 5 else 0)

def readDataContent (flags : UInt8) (rbuf : Bytes) (payload : PayloadStage) : PayloadRead :=
  if consumedData flags payload = dataLen flags payload then { res := true, rbuf, payload }
  else if rbuf = [] then { res := false, rbuf, payload }
  else
    let toConsume := min (subSize (dataLen flags payload) (consumedData flags payload)) rbuf.length
    { res := addSize (consumedData flags payload) toConsume == dataLen flags payload
      rbuf := rbuf.drop toConsume
      payload := { payload with consumedSize := addSize payload.consumedSize toConsume }
      data := rbuf.take toConsume }

def readPaddingContent (flags : UInt8) (rbuf : Bytes) (payload : PayloadStage) : PayloadRead :=
  if consumedData flags payload < dataLen flags payload then { res := false, rbuf, payload }
  else if !hasFlag flags paddedFlag || payload.padding == 0 then { res := true, rbuf, payload }
  else if rbuf = [] then { res := false, rbuf, payload }
  else
    let toConsume := min (subSize payload.totalSize payload.consumedSize) rbuf.length
    if toConsume > payload.padding.toNat then { res := false, ec := some .protocolError, rbuf, payload }
    else if (rbuf.take toConsume).any (· != 0) then
      { res := false, ec := some .protocolError, rbuf := rbuf.drop toConsume, payload }
    else
      let payload := { payload with consumedSize := addSize payload.consumedSize toConsume }
      { res := payload.consumedSize == payload.totalSize, rbuf := rbuf.drop toConsume, payload }

namespace Client

/-- The client after a part of the payload is read. -/
def reads (c : Client) (r : PayloadRead) : Client := { c with rbuf := r.rbuf, parserStage := .payload r.payload }

/-- The bytes of a frame whose stream is not open are thrown away. -/
def discardPayload (c : Client) (payload : PayloadStage) : Client :=
  let consume := min (subSize payload.totalSize payload.consumedSize) c.rbuf.length
  let payload := { payload with consumedSize := addSize payload.consumedSize consume }
  { c with
    rbuf := c.rbuf.drop consume
    parserStage := if payload.consumedSize = payload.totalSize then .header else .payload payload }

def onStreamReceivedHeaders (c : Client) (id : Nat) (flags : UInt8) : Client :=
  let c := if hasFlag flags endStreamFlag && hasFlag flags endHeadersFlag then c.modifyStream id Stream.recvES else c
  match c.findStream id with
  | some s => if s.isClosed then c.closeOpenStream id none false else c
  | none => c

def onStreamReceivedData (c : Client) (id : Nat) (flags : UInt8) : Client :=
  c.onStreamReceivedHeaders id (flags ||| endHeadersFlag)

def processDataFramePayload (c : Client) (header : FrameHeader) (payload : PayloadStage) : Client × Option Error :=
  match c.findStream header.streamId with
  | none => (c.discardPayload payload, none)
  | some _ =>
    let r := readPaddingLength header.flags c.rbuf payload
    if !r.res || failed r.ec then (c.reads r, r.ec)
    else
      let r := readDataContent header.flags r.rbuf r.payload
      let c := c.modifyStream header.streamId fun s => { s with resBuff := s.resBuff ++ r.data }
      if !r.res then (c.reads r, none)
      else
        let r := readPaddingContent header.flags r.rbuf r.payload
        if !r.res || failed r.ec then (c.reads r, r.ec)
        else
          ({ (c.reads r).onStreamReceivedData header.streamId header.flags with parserStage := .header }, none)

/-! ## Header blocks -/

/-- A response that is not accepted closes its stream. -/
def refuseHeadersBlock (c : Client) (id : Nat) : Client × Bool × Option Error :=
  (c.closeOpenStream id (some .protocolError) true, false, none)

/-- The decoded response, of which trailers only have the headers, the error of the decoder, and the client with the
decoder and the response of the stream. -/
def decodeHeadersBlock (c : Client) (it : Stream) : Response × Option DecodeError × Client :=
  if it.receivedTrailers then
    let r := c.hdecoder.decode c.hpackReadBuff []
    ({ headers := r.1 }, r.2.1, { c with hdecoder := r.2.2 })
  else
    let r := c.hdecoder.decodeResponse c.hpackReadBuff it.res
    (r.1, r.2.1, { c.modifyStream it.id fun s => { s with res := r.1 } with hdecoder := r.2.2 })

/-- `handle_headers_block`: the client, the result and the error. -/
def handleHeadersBlock (c : Client) (flags : UInt8) (it : Stream) : Client × Bool × Option Error :=
  match c.decodeHeadersBlock it with
  | (_, some _, c) => (c, false, some .compressionError)
  | (res, none, c) =>
    if !validateHeaders res.headers then c.refuseHeadersBlock it.id
    else if getHeaderListSize res.headers > c.selfMaxHeaderListSize then c.refuseHeadersBlock it.id
    else if it.receivedTrailers then (c, true, none)
    else if res.isInformational then
      if res.status = 101 then c.refuseHeadersBlock it.id
      else if it.receivedFinalRes then c.refuseHeadersBlock it.id
      else if hasFlag flags endStreamFlag then c.refuseHeadersBlock it.id
      else (c.modifyStream it.id fun s => { s with wantsHeaders := true, res := s.res.clear }, true, none)
    else (c.modifyStream it.id fun s => { s with receivedFinalRes := true }, true, none)

/-- The end of a frame with headers, once all its bytes are read: the block is handled if it is complete, and a block
that is not accepted leaves the stage as it is. -/
def finishHeadersFrame (c : Client) (header : FrameHeader) (it : Stream) : Client × Option Error :=
  let finish (c : Client) := { c.onStreamReceivedHeaders it.id header.flags with parserStage := .header }
  if hasFlag header.flags endHeadersFlag then
    match c.handleHeadersBlock header.flags it with
    | (c, false, ec) => (c, ec)
    | (c, true, ec) => (finish c, ec)
  else (finish c, none)

def processHeadersFramePayload (c : Client) (header : FrameHeader) (payload : PayloadStage) : Client × Option Error :=
  match c.findStream header.streamId with
  | none => (c.discardPayload payload, none)
  | some it =>
    let r := readPaddingLength header.flags c.rbuf payload
    if !r.res || failed r.ec then (c.reads r, r.ec)
    else
      let r := readPriority header.flags r.rbuf r.payload
      if !r.res then (c.reads r, none)
      else
        let r := readDataContent header.flags r.rbuf r.payload
        let c := { c with hpackReadBuff := c.hpackReadBuff ++ r.data }
        if !r.res then (c.reads r, none)
        else
          let r := readPaddingContent header.flags r.rbuf r.payload
          if !r.res || failed r.ec then (c.reads r, r.ec) else (c.reads r).finishHeadersFrame header it

def processContinuationFramePayload (c : Client) (header : FrameHeader) (payload : PayloadStage) :
    Client × Option Error :=
  match c.findStream header.streamId with
  | none => (c.discardPayload payload, none)
  | some it =>
    let consume := min (subSize payload.totalSize payload.consumedSize) c.rbuf.length
    let payload := { payload with consumedSize := addSize payload.consumedSize consume }
    let c := { c with
      hpackReadBuff := c.hpackReadBuff ++ c.rbuf.take consume, rbuf := c.rbuf.drop consume
      parserStage := .payload payload }
    if payload.consumedSize = payload.totalSize then c.finishHeadersFrame header it else (c, none)

/-! ## SETTINGS -/

def onReceivedSetting (c : Client) (svalue : SettingValue) : Client × Option Error :=
  match svalue.id with
  | 1 => ({ c with hencoder := c.hencoder.setMaxTableSize svalue.value }, none)
  | 2 => (c, if svalue.value ≠ 0 then some .protocolError else none)
  | 3 => ({ c with peerMaxConcurrentStreams := svalue.value }, none)
  | 4 => (c, if svalue.value > maxFlowControlWindowSize then some .flowControlError else none)
  | 5 =>
    if svalue.value < minPayloadSize || svalue.value > maxPayloadSize then (c, some .protocolError)
    else ({ c with peerMaxPayloadSize := svalue.value }, none)
  | 6 => ({ c with peerMaxHeaderListSize := svalue.value }, none)
  | _ => (c, none)

/-- One value of `apply_local_settings`. -/
def applyLocalSetting (c : Client) (svalue : SettingValue) : Client :=
  match svalue.id with
  | 1 => { c with hdecoder := c.hdecoder.setMaxTableSize svalue.value }
  | 4 => { c with selfStreamsInitialWindowSize := svalue.value }
  | 5 => { c with selfMaxPayloadSize := svalue.value }
  | 6 => { c with selfMaxHeaderListSize := svalue.value }
  | _ => c

def applyLocalSettings (c : Client) (sframe : SettingsFrame) : Client := sframe.foldl applyLocalSetting c

/-- How the loop over the values of a SETTINGS frame ends. -/
inductive SettingsRead where
  | complete
  | exhausted
  | error (ec : Error)

/-- `while (payload.consumed_size < payload.total_size)`. -/
def readSettings (c : Client) (payload : PayloadStage) : Client × PayloadStage × SettingsRead :=
  if payload.consumedSize < payload.totalSize then
    if c.rbuf.length < SettingValue.neededWriteSize then ({ c with rbufExhausted := true }, payload, .exhausted)
    else
      let svalue := SettingValue.ofBuffer (c.rbuf.take SettingValue.neededWriteSize)
      let payload := { payload with consumedSize := payload.consumedSize + SettingValue.neededWriteSize }
      match { c with rbuf := c.rbuf.drop SettingValue.neededWriteSize }.onReceivedSetting svalue with
      | (c, some ec) => (c, payload, .error ec)
      | (c, none) => readSettings c payload
  else (c, payload, .complete)
termination_by payload.totalSize - payload.consumedSize
decreasing_by simp only [SettingValue.neededWriteSize]; omega

def processSettingsFramePayload (c : Client) (header : FrameHeader) (payload : PayloadStage) : Client × Option Error :=
  match c.readSettings payload with
  | (c, payload, .exhausted) => ({ c with parserStage := .payload payload }, none)
  | (c, payload, .error ec) => ({ c with parserStage := .payload payload }, some ec)
  | (c, _, .complete) =>
    let c := { c with parserStage := .header, receivedConnectionSettings := true }
    if !hasFlag header.flags settingsAckFlag then
      ({ c with pendingSettingsAcks := (c.pendingSettingsAcks + 1) % 2 ^ 32 }, none)
    else
      match c.pendingAckSettings with
      | [] => (c, some .protocolError)
      | oldest :: rest =>
        ({ c with receivedConnectionSettingsAck := true, pendingAckSettings := rest }.applyLocalSettings oldest, none)

/-! ## The other payloads -/

def processPriorityFramePayload (c : Client) (payload : PayloadStage) : Client :=
  if c.rbuf = [] then c
  else c.discardPayload payload

def processPingFramePayload (c : Client) (header : FrameHeader) (payload : PayloadStage) : Client :=
  if c.rbuf.length < payload.totalSize then { c with rbufExhausted := true }
  else
    let opaqueData := ofBigEndian (c.rbuf.take 8)
    let c := { c with rbuf := c.rbuf.drop 8, parserStage := .header }
    if !hasFlag header.flags pingAckFlag then { c with pendingPings := c.pendingPings ++ [(opaqueData, true)] }
    else if opaqueData ∈ c.wantedPingsAcks then
      { c with wantedPingsAcks := c.wantedPingsAcks.erase opaqueData, closedAStream := true }
    else c

def processRstFramePayload (c : Client) (header : FrameHeader) (payload : PayloadStage) : Client :=
  if c.rbuf.length < payload.totalSize then { c with rbufExhausted := true }
  else
    let errorCode := ofBigEndian (c.rbuf.take 4)
    { c with rbuf := c.rbuf.drop 4, parserStage := .header }.closeOpenStream header.streamId
      (some (.ofCode errorCode)) false

def processGoawayFramePayload (c : Client) (payload : PayloadStage) : Client × Option Error :=
  if c.rbuf.length < payload.totalSize then ({ c with rbufExhausted := true }, none)
  else
    let errorCode := ofBigEndian ((c.rbuf.drop 4).take 4)
    let debugSize := payload.totalSize - (payload.consumedSize + 8)
    ({ c with
        rbuf := (c.rbuf.drop 8).drop debugSize, goawayReason := (c.rbuf.drop 8).take debugSize, parserStage := .header
        receivedGoaway := true, closedAStream := true },
      some (.ofCode errorCode))

def processWindowUpdateFramePayload (c : Client) (header : FrameHeader) (payload : PayloadStage) :
    Client × Option Error :=
  if c.rbuf.length < payload.totalSize then ({ c with rbufExhausted := true }, none)
  else
    let windowSize := ofBigEndian (c.rbuf.take 4) % 2 ^ 31
    let c := { c with rbuf := c.rbuf.drop 4 }
    if windowSize = 0 then
      if header.streamId ≠ 0 then
        ({ c.closeOpenStream header.streamId (some .protocolError) true with parserStage := .header }, none)
      else (c, some .protocolError)
    else ({ c with parserStage := .header }, none)

/-! ## The loop -/

def processFramePayload (c : Client) (header : FrameHeader) (payload : PayloadStage) : Client × Option Error :=
  match header.type with
  | .data => c.processDataFramePayload header payload
  | .headers => c.processHeadersFramePayload header payload
  | .priority => (c.processPriorityFramePayload payload, none)
  | .rstStream => (c.processRstFramePayload header payload, none)
  | .settings => c.processSettingsFramePayload header payload
  | .pushPromise => (c, none)
  | .ping => (c.processPingFramePayload header payload, none)
  | .goaway => c.processGoawayFramePayload payload
  | .windowUpdate => c.processWindowUpdateFramePayload header payload
  | .continuation => c.processContinuationFramePayload header payload
  | .unknown _ => (c, none)

end Client

/-- The variables of `parse_frames`: the client and `has_zero_payload`. -/
structure ParseState where
  client : Client
  hasZeroPayload : Bool := false

/-- The parser stage that an accepted frame header leads to. -/
def Client.acceptHeader (c : Client) (header : FrameHeader) : ParseState :=
  let newHeader := copyEndStreamFlagFromHeadersToContinuation c.lastHeader
    { header with flags := header.flags &&& validFramesFlags header.type }
  { client := { c with
      lastHeader := some newHeader
      parserStage := .payload { totalSize := newHeader.length, minReadSize := newHeader.minPayloadSize } }
    hasZeroPayload := newHeader.length == 0 }

/-- A pass of `parse_frames` in the header stage. -/
def Client.parseHeader (c : Client) : Pass ParseState (Client × Option Error) :=
  if c.rbuf.length < FrameHeader.neededWriteSize then .done ({ c with rbufExhausted := true }, none)
  else
    let header := FrameHeader.ofBuffer (c.rbuf.take FrameHeader.neededWriteSize)
    match { c with rbuf := c.rbuf.drop FrameHeader.neededWriteSize }.validateFrameHeader header with
    | (c, some ec) => .done (c, some ec)
    | (c, none) => .next (c.acceptHeader header)

/-- A pass of `parse_frames` in the payload stage. -/
def Client.parsePayload (c : Client) (header : FrameHeader) (payload : PayloadStage) :
    Pass ParseState (Client × Option Error) :=
  if c.rbuf.length < payload.minReadSize then .done (c, none)
  else
    match c.processFramePayload header payload with
    | (c, ec) => if failed ec then .done (c, ec) else .next { client := c }

/-- One pass of `parse_frames`. -/
def parsePass (s : ParseState) : Pass ParseState (Client × Option Error) :=
  let c := s.client
  if c.stopped || (c.rbuf.isEmpty && !s.hasZeroPayload) then .done (c, none)
  else
    match c.parserStage with
    | .header => c.parseHeader
    | .payload payload => c.parsePayload (c.lastHeader.getD {}) payload

namespace Client

/-- `parse_frames` returns, with the client and the error. -/
abbrev ParsesTo (c : Client) (r : Client × Option Error) : Prop := Returns parsePass { client := c } r

def needReading (c : Client) : Bool := c.rbuf.isEmpty || c.rbufExhausted

def space (c : Client) : Nat := readBuffSize - c.rbuf.length

/-- The bytes of one read of the transport. -/
def receive (c : Client) (chunk : Bytes) : Client := { c with rbuf := c.rbuf ++ chunk, rbufExhausted := false }

end Client

end Rad.Http2
