import Rad.Http2.Client.SendQueue
import Rad.Http2.Client.Parser
import Rad.Http2.Frame
import Rad.Lib.Run

/-!
# The client as a system

The coroutines of the client run on one thread and give way to each other only where they wait, so a run is a sequence
of the pieces of code between two waits. A pass of `parse_frames` is a step of its own; the other steps are taken between
two calls of it. Writes to the transport are taken to succeed, and a run ends at a connection error.
-/

/-! ## Opening streams (src/net/http2/http2_client.cpp)

The request of a stream is sent when the stream leaves `idle_streams_`. The write to the transport is taken to succeed.
-/

namespace Rad.Http2.Client

def makeNewStreamId (c : Client) : Nat × Client :=
  if c.lastClientId = 0 then (1, { c with lastClientId := 1 })
  else
    let lastClientId := (c.lastClientId + 2) % 2 ^ 32
    if lastClientId > maxStreamId || lastClientId < c.lastClientId then
      (0, { c with lastClientId, toSendGoawayEc := c.toSendGoawayEc.or (some .noError) })
    else (lastClientId, { c with lastClientId })

/-- The stream that is opened with an id: it is half closed at once if there is no body to send. `body_size` is a
`uint32_t`, so the size of a body of 4 GiB counts as zero. -/
def openedStream (s : Stream) (id : Nat) (windowSize : Int) : Stream :=
  let s := { s with id, windowSize }.sendH
  let bodySize := s.body.length % 2 ^ 32
  if bodySize = 0 then s.sendES else s

/-- `send_one_stream_request`, up to the write: the client, and the buffers to be written. -/
def sendOneStreamRequest (c : Client) : Client × List (Bytes × Bytes) :=
  match c.idleStreams with
  | [] => (c, [])
  | s :: idleStreams =>
    match c.makeNewStreamId with
    | (newId, c) =>
      if newId = 0 then (c, [])
      else
        let frames := makeHeadersContinuationsFrames newId s.method s.path s.hdrs s.body.isEmpty c.peerMaxPayloadSize
          c.hencoder
        let s := openedStream s newId (wrapInt32 c.selfStreamsInitialWindowSize)
        ({ c with hencoder := frames.2, idleStreams, openStreams := c.openStreams ++ [s] }, frames.1)

end Rad.Http2.Client

namespace Rad.Http2

open Lib

/-! ## Requests -/

/-- A stream as `request` queues it: new, or restarted for a redirection, which leaves the counters of the data and of
the CONTINUATION frames as they are. -/
def Stream.isRequest (s : Stream) : Bool :=
  s.id = 0 && s.state = .idle && s.rstEc.isNone && s.wantsHeaders && !s.receivedFinalRes && !s.receivedTrailers

/-- The stream leaves `open_streams_` without being closed, because its request is given up. -/
def Client.abandon (c : Client) (id : Nat) : Client :=
  { c with openStreams := c.openStreams.eraseIdx (c.openStreams.findIdx (·.id == id)) }

/-! ## Steps -/

inductive Action where
  /-- `do_connect` or `do_handshake`, up to the first read -/
  | connect
  /-- a read of `receive_and_parse_frames` -/
  | read (chunk : Bytes)
  /-- a pass of `parse_frames` -/
  | pass
  /-- `process_send_queue` -/
  | flush
  /-- `send_one_stream_request` -/
  | sendRequest
  /-- `send_streams_bodies_until`, up to the write -/
  | sendBodies
  /-- `send_streams_bodies_until`, behind the write -/
  | finishBodies
  /-- `request` queues a stream -/
  | request (s : Stream)
  /-- a request that is not sent is given up -/
  | abandonIdle (i : Nat)
  /-- a request that is sent is given up -/
  | abandon (id : Nat)
  | ping
  | maxHeadersSize (n : Nat)
  | maxBodySize (n : Nat)
  | maxContinuationFrames (n : Nat)
  | asyncClose (ec : Error)
  | stop
  deriving DecidableEq

/-- The client, whether the preface is sent, and `has_zero_payload` while `parse_frames` runs. -/
structure System where
  client : Client := {}
  connected : Bool := false
  parsing : Option Bool := none

/-- What the connection has to be like for a step between two calls of `parse_frames`. -/
def Action.enabled (s : System) : Action → Bool
  | .connect => !s.connected && !s.client.stopped
  | .read chunk =>
    s.connected && !s.client.stopped && s.client.needReading && !chunk.isEmpty && chunk.length ≤ s.client.space
  | .pass => s.connected
  | .flush => s.connected
  | .sendRequest => s.connected && !s.client.stopped && s.client.sendQueueEmpty && s.client.canOpenNewStreams
  | .sendBodies => s.connected && !s.client.stopped
  | .finishBodies => s.connected
  | .request r => s.client.lastHeader.isSome && !s.client.stopped && r.isRequest
  | .abandonIdle _ => true
  | .abandon id => id ∈ s.client.streamIds
  | .ping => s.client.lastHeader.isSome && !s.client.stopped
  | .maxHeadersSize n => n < 2 ^ 32
  | .maxBodySize n => n < 2 ^ 64
  | .maxContinuationFrames n => n < 2 ^ 32
  | .asyncClose _ => s.client.lastHeader.isSome
  | .stop => true

/-- What a step between two calls of `parse_frames` does. -/
def Action.perform (c : Client) : Action → Client × List SentFrame
  | .connect => c.sendPreface
  | .read chunk => (c.receive chunk, [])
  | .pass => (c, [])
  | .flush => c.preparePendingSendQueue
  | .sendRequest => (c.sendOneStreamRequest.1, c.sendOneStreamRequest.2.map fun frame => .headers frame.1 frame.2)
  | .sendBodies => (c.collectDataFrames.1, c.collectDataFrames.2.map fun frame => .data frame.1 frame.2)
  | .finishBodies => (c.finishBodies, [])
  | .request s => ({ c with idleStreams := c.idleStreams ++ [s] }, [])
  | .abandonIdle i => ({ c with idleStreams := c.idleStreams.eraseIdx i }, [])
  | .abandon id => (c.abandon id, [])
  | .ping => (c.sendPing, [])
  | .maxHeadersSize n => (c.maxHeadersSize n, [])
  | .maxBodySize n => ({ c with maxBodySize := n }, [])
  | .maxContinuationFrames n => ({ c with selfMaxContinuationFrames := n }, [])
  | .asyncClose ec => (c.asyncClose ec, [])
  | .stop => ({ c with stopped := true }, [])

namespace System

/-- The state before a pass of `parse_frames`: the variables of the function are new at the beginning of a call. -/
def parseState (s : System) : ParseState := { client := s.client, hasZeroPayload := s.parsing.getD false }

/-- A pass of `parse_frames`. There is no step when it ends with an error. -/
def passStep (s : System) : Option System :=
  match parsePass s.parseState with
  | .next t => some { s with client := t.client, parsing := some t.hasZeroPayload }
  | .done (c, ec) => if failed ec then none else some { s with client := c, parsing := none }

def step (s : System) (a : Action) : Option (System × List SentFrame) :=
  if !a.enabled s then none
  else if a = .pass then s.passStep.map fun t => (t, [])
  else if s.parsing.isSome then none
  else
    let r := a.perform s.client
    some ({ s with client := r.1, connected := s.connected || a = .connect }, r.2)

end System

/-- The runs of a client from its construction on. -/
abbrev SystemRun (xs : List (Transition System Action SentFrame)) (s : System) : Prop := Run System.step {} xs s

end Rad.Http2
