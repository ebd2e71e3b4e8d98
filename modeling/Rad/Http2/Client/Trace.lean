import Rad.Http2.Client.System

/-!
# What is seen of a run

The frames that go over the wire in the two directions, and what the client does at its interface, as functions of the
transitions of a run.
-/

namespace Rad.Http2

open Lib

/-- A step of the system with its states. -/
abbrev Step := Transition System Action SentFrame

/-- The client behind a pass, whether the loop goes on or returns. -/
def clientBehind : Pass ParseState (Client × Option Error) → Client
  | .next t => t.client
  | .done r => r.1

/-- A pass as a step of a run, also when it ends with an error. -/
def System.attempt (s : System) : Step where
  before := s
  action := .pass
  output := []
  after := { s with client := clientBehind (parsePass s.parseState) }

namespace Step

/-! ## Received frames -/

/-- The frame header that is accepted in a pass. -/
def headerReceived (x : Step) : Option FrameHeader :=
  if x.action = .pass ∧ x.before.client.parserStage = .header ∧ x.after.client.parserStage ≠ .header then
    some (FrameHeader.ofBuffer (x.before.client.rbuf.take FrameHeader.neededWriteSize))
  else none

/-- The header of the frame that is complete after a pass. -/
def frameReceived (x : Step) : Option FrameHeader :=
  if x.action = .pass ∧ x.before.client.parserStage ≠ .header ∧ x.after.client.parserStage = .header then
    x.before.client.lastHeader
  else none

/-- The lengths of the DATA frames. -/
def dataReceived (x : Step) : List Nat := (x.headerReceived.toList.filter (·.type = .data)).map FrameHeader.length

/-- The SETTINGS frames that are to be acknowledged. -/
def settingsReceived (x : Step) : List FrameHeader :=
  x.frameReceived.toList.filter fun header => header.type = .settings && !hasFlag header.flags settingsAckFlag

/-- The acknowledgements of SETTINGS frames. -/
def settingsAcksReceived (x : Step) : List FrameHeader :=
  x.frameReceived.toList.filter fun header => header.type = .settings && hasFlag header.flags settingsAckFlag

/-- The opaque data of the PING frames that are to be acknowledged. -/
def pingsReceived (x : Step) : List Nat :=
  (x.frameReceived.toList.filter fun header => header.type = .ping && !hasFlag header.flags pingAckFlag).map
    fun _ => ofBigEndian (x.before.client.rbuf.take 8)

/-- The values of a SETTINGS frame that a pass reads. -/
def settingValuesReceived (x : Step) : List SettingValue :=
  if x.action = .pass ∧ x.before.client.parserStage ≠ .header ∧ x.before.client.lastHeader.any (·.type = .settings) then
    let values := x.before.client.rbuf.take (x.before.client.rbuf.length - x.after.client.rbuf.length)
    (List.range (values.length / SettingValue.neededWriteSize)).map fun i =>
      .ofBuffer ((values.drop (SettingValue.neededWriteSize * i)).take SettingValue.neededWriteSize)
  else []

/-- The streams and increments of the WINDOW_UPDATE frames. -/
def windowUpdatesReceived (x : Step) : List (Nat × Nat) :=
  (x.frameReceived.toList.filter (·.type = .windowUpdate)).map fun header =>
    (header.streamId, ofBigEndian (x.before.client.rbuf.take 4) % 2 ^ 31)

/-! ## Streams -/

/-- The streams that are opened. -/
def opened (x : Step) : List Stream :=
  if x.action = .sendRequest then x.after.client.openStreams.drop x.before.client.openStreams.length else []

/-- The streams that are closed. -/
def closed (x : Step) : List Stream := x.after.client.closedStreams.drop x.before.client.closedStreams.length

/-- The streams that the client resets, with the error: those that are closed with an error that is not the peer's. -/
def resets (x : Step) : List (Nat × Error) :=
  if x.after.client.lastHeader.any (·.type = .rstStream) then []
  else x.closed.filterMap fun s => s.rstEc.map fun ec => (s.id, ec)

/-- The stream with the id behind the step: it is open, or was closed in it. -/
def streamAfter (id : Nat) (x : Step) : Option Stream := (x.after.client.openStreams ++ x.closed).find? (·.id == id)

/-- What is appended to the response buffer of a stream that was open. -/
def appended (id : Nat) (x : Step) : Bytes :=
  match x.before.client.findStream id, x.streamAfter id with
  | some it, some it' => it'.resBuff.drop it.resBuff.length
  | _, _ => []

/-- The last frame of a header block of an open stream that is accepted, and the stream as it was. -/
def blockAccepted (id : Nat) (x : Step) : Option (FrameHeader × Stream) :=
  match x.frameReceived, x.before.client.findStream id with
  | some header, some it =>
    if header.streamId = id ∧ (header.type = .headers ∨ header.type = .continuation) ∧
        hasFlag header.flags endHeadersFlag = true then some (header, it)
    else none
  | _, _ => none

/-- A response that is not an informational one is accepted. -/
def finalAccepted (id : Nat) (x : Step) : Bool :=
  (x.blockAccepted id).any fun block => !block.2.receivedTrailers &&
    !(x.before.client.hdecoder.decodeResponse x.after.client.hpackReadBuff block.2.res).1.isInformational

/-- Trailers are accepted. -/
def trailersAccepted (id : Nat) (x : Step) : Bool := (x.blockAccepted id).any (·.2.receivedTrailers)

/-- The end of the stream is received: END_STREAM of a DATA frame or of a complete header block. -/
def endReceived (id : Nat) (x : Step) : Bool :=
  x.frameReceived.any fun header => header.streamId = id && hasFlag header.flags endStreamFlag &&
    (header.type = .data ||
      (header.type = .headers || header.type = .continuation) && hasFlag header.flags endHeadersFlag)

/-! ## Sent frames -/

def settingsAcksSent (x : Step) : List SentFrame := x.output.filter (· = .settingsAck)

def settingsSent (x : Step) : List SettingsFrame :=
  x.output.filterMap fun
    | .settings values => some values
    | _ => none

/-- The opaque data of the acknowledgements of PING frames. -/
def pingAcksSent (x : Step) : List Nat :=
  x.output.filterMap fun
    | .ping opaqueData true => some opaqueData
    | _ => none

/-- The identifiers and error codes of the RST_STREAM frames. -/
def rstStreamsSent (x : Step) : List (Nat × Nat) :=
  x.output.filterMap fun
    | .rstStream streamId errorCode => some (streamId, errorCode)
    | _ => none

/-- The increments of the connection window. -/
def windowIncrementsSent (x : Step) : List Nat :=
  x.output.filterMap fun
    | .windowUpdate 0 increment => some increment
    | _ => none

/-- The DATA frames. -/
def dataFramesSent (x : Step) : List (FrameHeader × Bytes) :=
  x.output.filterMap fun
    | .data header payload => some (header, payload)
    | _ => none

/-- The DATA frames of a stream. -/
def dataSent (id : Nat) (x : Step) : List (FrameHeader × Bytes) := x.dataFramesSent.filter (·.1.streamId = id)

end Step

end Rad.Http2
