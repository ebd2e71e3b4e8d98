import Rad.Http2.Client.Parser

/-!
# Control frames and settings (src/net/http2/http2_client.cpp)

The reader fills the queues of the client, the writer drains them with `prepare_pending_send_queue`. `write_buff_` is the
list of the frames that are written to it.
-/

namespace Rad.Http2

open Hpack Http Lib

/-! ## Frames that are sent -/

/-- A frame that the client writes: the control frames by their fields, DATA and HEADERS frames by their buffers. -/
inductive SentFrame where
  | settings (values : SettingsFrame)
  | settingsAck
  | windowUpdate (streamId windowSizeIncrement : Nat)
  | ping (opaqueData : Nat) (ack : Bool)
  | rstStream (streamId errorCode : Nat)
  | goaway (lastStreamId errorCode : Nat) (debugData : Bytes)
  | data (header : FrameHeader) (payload : Bytes)
  | headers (header payload : Bytes)
  deriving DecidableEq

def SettingValue.buffer (svalue : SettingValue) : Bytes := toBigEndian 2 svalue.id ++ toBigEndian 4 svalue.value

/-- `write_to_buffer` of the frame. -/
def SentFrame.buffer : SentFrame → Bytes
  | settings values =>
    FrameHeader.buffer { type := .settings, length := 6 * values.length } ++ values.flatMap SettingValue.buffer
  | settingsAck => FrameHeader.buffer { type := .settings, flags := settingsAckFlag }
  | windowUpdate streamId windowSizeIncrement =>
    FrameHeader.buffer { type := .windowUpdate, streamId, length := 4 } ++ toBigEndian 4 windowSizeIncrement
  | ping opaqueData ack =>
    FrameHeader.buffer { type := .ping, flags := if ack then pingAckFlag else 0, length := 8 } ++
      toBigEndian 8 opaqueData
  | rstStream streamId errorCode =>
    FrameHeader.buffer { type := .rstStream, streamId, length := 4 } ++ toBigEndian 4 errorCode
  | goaway lastStreamId errorCode debugData =>
    FrameHeader.buffer { type := .goaway, length := 8 + debugData.length } ++ toBigEndian 4 lastStreamId ++
      toBigEndian 4 errorCode ++ debugData
  | data header payload => header.buffer ++ payload
  | headers header payload => header ++ payload

/-- The window of the stream is to be enlarged. -/
def Stream.wantsWindow (s : Stream) : Bool :=
  !(s.isClosed || s.isHalfClosedRemote) && s.windowSize ≤ minAllowedWindowSize

namespace Client

/-! ## The preface -/

/-- `make_settings_frame(get_connect_config(), endpoint_config{})`: the values that are not the default ones. -/
def connectSettings : SettingsFrame :=
  [⟨4, defaultClientWindowSize.toNat⟩, ⟨6, 16 * 1024⟩, ⟨2, 0⟩]

def defaultHeaderTableSize : Nat := 4096

/-- The connection preface of `do_connect` and `do_handshake`, and `init_read_buffers_and_hpack_tables`. -/
def sendPreface (c : Client) : Client × List SentFrame :=
  ({ c with
      pendingAckSettings := c.pendingAckSettings ++ [connectSettings]
      rbuf := []
      hencoder := c.hencoder.setMaxTableSize defaultHeaderTableSize
      hdecoder := c.hdecoder.setMaxTableSize defaultHeaderTableSize },
    [.settings connectSettings, .windowUpdate 0 defaultClientWindowSize.toNat])

/-! ## The client's own settings -/

/-- The loop of `update_settings` that merges a frame into the one that is not sent yet. -/
def mergeSettings (current sframe : SettingsFrame) : SettingsFrame :=
  sframe.foldl (fun current svalue =>
    if current.any (·.id == svalue.id) then
      current.modify (current.findIdx (·.id == svalue.id)) fun siv => { siv with value := svalue.value }
    else current ++ [svalue]) current

def updateSettings (c : Client) (sframe : SettingsFrame) : Client :=
  if c.stopped || sframe.isEmpty then c
  else if c.pendingSendSettings = some sframe then c
  else if c.pendingSendSettings.isNone && c.pendingAckSettings.getLast? = some sframe then c
  else
    match c.pendingSendSettings with
    | none => { c with pendingSendSettings := some sframe }
    | some current =>
      { c with pendingSendSettings := some (if current.isEmpty then sframe else mergeSettings current sframe) }

def maxHeadersSize (c : Client) (n : Nat) : Client :=
  if c.selfMaxHeaderListSize = n then c else c.updateSettings [⟨6, n⟩]

/-! ## The send queue -/

def sendQueueEmpty (c : Client) : Bool :=
  c.pendingPings.isEmpty && c.pendingRstStreams.isEmpty && c.toSendGoawayEc.isNone && c.pendingSendSettings.isNone &&
    c.pendingSettingsAcks == 0 && c.windowSize > minAllowedWindowSize && c.openStreams.all (!Stream.wantsWindow ·)

/-- `default_client_window_size - window_space`, an `int32_t` that is stored as a `uint32_t`. -/
def windowIncrement (windowSpace : Int) : Nat := ((defaultClientWindowSize - windowSpace) % 2 ^ 32).toNat

/-- The WINDOW_UPDATE frames of the open streams. -/
def streamWindowUpdates (streams : List Stream) : List SentFrame :=
  (streams.filter Stream.wantsWindow).map fun s => .windowUpdate s.id (windowIncrement s.windowSize)

def preparePendingSendQueue (c : Client) : Client × List SentFrame :=
  match c.toSendGoawayEc with
  | some ec => (c, [.goaway c.lastClientId ec.value ec.message])
  | none =>
    ({ c with
        pendingSettingsAcks := 0
        pendingAckSettings := c.pendingAckSettings ++ c.pendingSendSettings.toList
        pendingSendSettings := none
        windowSize := if c.windowSize ≤ minAllowedWindowSize then defaultClientWindowSize else c.windowSize
        openStreams := c.openStreams.map fun s =>
          if s.wantsWindow then { s with windowSize := defaultClientWindowSize } else s
        pendingPings := []
        pendingRstStreams := [] },
      List.replicate c.pendingSettingsAcks .settingsAck ++
        c.pendingSendSettings.toList.map .settings ++
        (if c.windowSize ≤ minAllowedWindowSize then [.windowUpdate 0 (windowIncrement c.windowSize)] else []) ++
        streamWindowUpdates c.openStreams ++
        c.pendingPings.map (fun ping => .ping ping.1 ping.2) ++
        c.pendingRstStreams.map fun rst => .rstStream rst.1 rst.2.value)

/-- The part of `ping` and of `timeout_detector` that queues a PING frame. -/
def sendPing (c : Client) : Client :=
  { c with
    lastPingOpaqueData := (c.lastPingOpaqueData + 1) % 2 ^ 64
    pendingPings := c.pendingPings ++ [(c.lastPingOpaqueData, false)]
    wantedPingsAcks := c.wantedPingsAcks ++ [c.lastPingOpaqueData] }

/-- The part of `async_close` in front of the wait. -/
def asyncClose (c : Client) (ec : Error) : Client :=
  if c.stopped || c.toSendGoawayEc.isSome then c else { c with toSendGoawayEc := some ec }

end Client

/-! ## Sending request bodies (src/net/http2/http2_client.cpp, src/net/http2/http2_parser.cpp)

A round of `collect_data_frames` goes over the open streams again and again and takes a chunk of each body, until one of
the limits on a round is reached. Sizes are `size_t`; they count bytes that exist in memory.
-/

/-! ## A round -/

/-- The variables of `collect_data_frames`, with the frames in the order of production. -/
structure Round where
  streams : List Stream
  frames : List (FrameHeader × Bytes) := []
  totalSize : Nat
  availableFrames : Nat

/-- The stream has something of its body to send. -/
def Stream.hasBody (s : Stream) : Bool := !(s.isHalfClosedLocal || s.isClosed || s.body.isEmpty)

def dataFrameHeader (s : Stream) (writeSize : Nat) : FrameHeader :=
  { type := .data, streamId := s.id, length := writeSize,
    flags := if writeSize = s.body.length then endStreamFlag else 0 }

/-- The loop over the open streams, which the limits may break off. -/
def collectSweep (maxChunkSize : Nat) (streams : List Stream) (totalSize availableFrames : Nat) : Round :=
  match streams with
  | [] => { streams := [], totalSize, availableFrames }
  | s :: rest =>
    if !s.hasBody then
      let r := collectSweep maxChunkSize rest totalSize availableFrames
      { r with streams := s :: r.streams }
    else
      let writeSize := min maxChunkSize s.body.length
      let frame := (dataFrameHeader s writeSize, s.body.take writeSize)
      let s := { s with body := s.body.drop writeSize }
      if availableFrames - 1 = 0 ∨ totalSize + writeSize ≥ minAllowedWindowSize.toNat then
        { streams := s :: rest, frames := [frame], totalSize := totalSize + writeSize,
          availableFrames := availableFrames - 1 }
      else
        let r := collectSweep maxChunkSize rest (totalSize + writeSize) (availableFrames - 1)
        { r with streams := s :: r.streams, frames := frame :: r.frames }

theorem collectSweep_availableFrames (maxChunkSize : Nat) (streams : List Stream) : ∀ {totalSize availableFrames : Nat},
    0 < availableFrames →
    (collectSweep maxChunkSize streams totalSize availableFrames).availableFrames +
      (collectSweep maxChunkSize streams totalSize availableFrames).frames.length = availableFrames := by
  induction streams with
  | nil => intro totalSize availableFrames _; rfl
  | cons s rest ih =>
      intro totalSize availableFrames hpos
      rw [collectSweep]
      split
      · exact ih hpos
      · dsimp only
        split
        · simp only [List.length_singleton]
          omega
        · rename_i hgo
          have hrest := @ih (totalSize + min maxChunkSize s.body.length) (availableFrames - 1) (by omega)
          simp only [List.length_cons]
          omega

/-- `while (available_frames > 0 && total_size < 16 * 1024)`. -/
def collectLoop (maxChunkSize : Nat) (streams : List Stream) (totalSize availableFrames : Nat) : Round :=
  if h : 0 < availableFrames ∧ totalSize < 16 * 1024 then
    let r := collectSweep maxChunkSize streams totalSize availableFrames
    if hcollected : r.frames = [] then r
    else
      let rest := collectLoop maxChunkSize r.streams r.totalSize r.availableFrames
      { rest with frames := r.frames ++ rest.frames }
  else { streams, totalSize, availableFrames }
termination_by availableFrames
decreasing_by
  have hleft := @collectSweep_availableFrames maxChunkSize streams totalSize availableFrames h.1
  have hpos : 0 < (collectSweep maxChunkSize streams totalSize availableFrames).frames.length :=
    List.length_pos_iff.2 hcollected
  omega

/-- `make_frames_buffers`: the buffers that are written, a frame header and its payload in turn. -/
def makeFramesBuffers (dataFrames : List (FrameHeader × Bytes)) : List Bytes :=
  dataFrames.flatMap fun frame => [frame.1.buffer, frame.2]

namespace Client

def maxChunkSize (c : Client) : Nat := min c.peerMaxPayloadSize (8 * 1024)

def collectDataFrames (c : Client) : Client × List (FrameHeader × Bytes) :=
  let r := collectLoop c.maxChunkSize c.openStreams 0 100
  ({ c with openStreams := r.streams }, r.frames)

/-! ## The ends of bodies -/

/-- One pass of the loop behind the write: a stream without a rest of its body is closed on this side. -/
def finishBody (c : Client) (s : Stream) : Client :=
  if s.isHalfClosedLocal || s.isClosed || !s.body.isEmpty then c
  else
    let c := c.modifyStream s.id Stream.sendES
    if s.sendES.isClosed then c.closeOpenStream s.id none false else c

/-- The end of `send_streams_bodies_until`, behind the write. -/
def finishBodies (c : Client) : Client := c.openStreams.foldl finishBody c

def hasLocalOpenStreams (c : Client) : Bool := c.openStreams.any fun s => !s.isHalfClosedLocal && !s.isClosed

def canOpenNewStreams (c : Client) : Bool :=
  !c.idleStreams.isEmpty && c.openStreams.length < c.peerMaxConcurrentStreams

end Client

end Rad.Http2
