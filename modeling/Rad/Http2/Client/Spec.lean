import Rad.Http2.Client.Parser

/-!
# What the parser is to do

The properties of `parse_frames`, and the states in which a pass of it goes wrong.
-/

namespace Rad.Http2

open Lib

/-! ## Runs of the parser

`parse_frames` is called again and again. Between two calls bytes are read from the transport, and the other coroutines
of the client open and close streams. A run is given by the states in which the passes of `parse_frames` begin.
-/

/-- What the parser relies on while other coroutines run: its own fields are left alone, a client that is stopped stays
stopped, and the streams that are opened get identifiers above all the ones before. -/
structure Rely (c c' : Client) : Prop where
  rbuf : c'.rbuf = c.rbuf
  parserStage : c'.parserStage = c.parserStage
  lastHeader : c'.lastHeader = c.lastHeader
  rbufExhausted : c'.rbufExhausted = c.rbufExhausted
  hpackReadBuff : c'.hpackReadBuff = c.hpackReadBuff
  stopped : c.stopped → c'.stopped
  lastClientId : c.lastClientId ≤ c'.lastClientId
  streamIds : ∃ new : List Nat, c'.streamIds.Sublist (c.streamIds ++ new) ∧ new.Nodup ∧
    ∀ id ∈ new, c.lastClientId < id ∧ id ≤ c'.lastClientId

/-- A step between two calls of `parse_frames`. -/
inductive Resume : Client → Client → Prop where
  | rely {c c' : Client} (h : Rely c c') : Resume c c'
  | read {c : Client} (chunk : Bytes) (need : c.needReading) (nonempty : chunk ≠ []) (fits : chunk.length ≤ c.space) :
      Resume c (c.receive chunk)

/-- A client that has not received anything yet. -/
structure Fresh (c : Client) : Prop where
  rbuf : c.rbuf = []
  parserStage : c.parserStage = .header
  lastHeader : c.lastHeader = none
  rbufExhausted : c.rbufExhausted = false
  openStreams : c.openStreams = []

/-- The states in which a pass of `parse_frames` begins, in a run whose passes all begin in states that are `ok`. -/
inductive Reachable (ok : ParseState → Prop) : ParseState → Prop where
  | connect {c : Client} (h : Fresh c) : Reachable ok { client := c }
  | pass {s t : ParseState} (h : Reachable ok s) (hok : ok s) (hpass : parsePass s = .next t) : Reachable ok t
  | call {s : ParseState} {c c' : Client} {ec : Option Error} (h : Reachable ok s) (hok : ok s)
      (hdone : parsePass s = .done (c, ec)) (hec : failed ec = false) (hresume : Relation.ReflTransGen Resume c c') :
      Reachable ok { client := c' }

/-- All runs. -/
abbrev Reached : ParseState → Prop := Reachable fun _ => True

/-- What the loop asks for before it makes a pass. -/
structure Runs (s : ParseState) : Prop where
  stopped : s.client.stopped = false
  input : s.client.rbuf ≠ [] ∨ s.hasZeroPayload

/-- The parser is in the payload stage of the frame with the given header. -/
structure InPayload (c : Client) (header : FrameHeader) (payload : PayloadStage) : Prop where
  lastHeader : c.lastHeader = some header
  parserStage : c.parserStage = .payload payload

/-! ## HEADERS and DATA frames -/

/-- The next function is called unless the one before returns false or sets an error. -/
def PayloadRead.andThen (r : PayloadRead) (f : Bytes → PayloadStage → PayloadRead) : PayloadRead :=
  if !r.res || failed r.ec then r else { f r.rbuf r.payload with data := r.data ++ (f r.rbuf r.payload).data }

/-- All that a pass reads of a frame. -/
def readFrame (flags : UInt8) (rbuf : Bytes) (payload : PayloadStage) : PayloadRead :=
  (((readPaddingLength flags rbuf payload).andThen (readPriority flags)).andThen (readDataContent flags)).andThen
    (readPaddingContent flags)

/-- The bytes in front of the data: the padding length and the priority. -/
def prefixSize (flags : UInt8) : Nat :=
  (if hasFlag flags paddedFlag then 1 else 0) + if hasFlag flags priorityFlag then 5 else 0

/-- The priority is the next to be read, and it is not there. -/
def PriorityCut (flags : UInt8) (rbuf : Bytes) (payload : PayloadStage) : Prop :=
  hasFlag flags priorityFlag ∧ (hasFlag flags paddedFlag → 1 ≤ payload.consumedSize) ∧
    payload.consumedSize < priorityConsumedSize flags ∧ rbuf.length < 5

/-- The padding length that is read next leaves no room for the priority. -/
def PaddingWraps (flags : UInt8) (rbuf : Bytes) (payload : PayloadStage) : Prop :=
  hasFlag flags paddedFlag ∧ payload.consumedSize = 0 ∧ ∃ padding rest, rbuf = padding :: rest ∧
    padding.toNat < payload.totalSize ∧ payload.totalSize < prefixSize flags + padding.toNat

/-- The length of the padding: the next byte, as long as it is not read. -/
def paddingLength (rbuf : Bytes) (payload : PayloadStage) : Nat :=
  if payload.consumedSize = 0 then (rbuf.headD 0).toNat else payload.padding.toNat

/-- The bytes of the frame that are there end inside its padding, whose first bytes are zero. -/
def PaddingCut (flags : UInt8) (rbuf : Bytes) (payload : PayloadStage) : Prop :=
  hasFlag flags paddedFlag ∧ payload.totalSize < payload.consumedSize + rbuf.length + paddingLength rbuf payload ∧
    payload.consumedSize + rbuf.length < payload.totalSize ∧
    (rbuf.drop (payload.totalSize - paddingLength rbuf payload - payload.consumedSize)).all (· == 0)

/-! ## Progress -/

/-- `parse_frames` returns, and when it does so without an error `receive_and_parse_frames` reads from the transport
before it calls it again. -/
structure ParseProgress (c : Client) : Prop where
  returns : ∃ r, c.ParsesTo r
  reads : ∀ c' ec, c.ParsesTo (c', ec) → failed ec = false → c'.rbuf = [] ∨ c'.rbufExhausted = true

/-- A pass with something in the buffer that neither consumes anything nor asks for more. -/
inductive Starved (s : ParseState) : Prop where
  /-- the client is stopped -/
  | stopped (bytes : s.client.rbuf ≠ []) (stopped : s.client.stopped = true) (flag : s.client.rbufExhausted = false)
  /-- less than the minimum of the payload is there, and the flag is not set -/
  | short (header : FrameHeader) (payload : PayloadStage) (stage : InPayload s.client header payload)
      (running : s.client.stopped = false) (bytes : s.client.rbuf ≠ [])
      (short : s.client.rbuf.length < header.minPayloadSize) (flag : s.client.rbufExhausted = false)
  /-- the priority of a HEADERS frame on an open stream is cut: the loop does not end -/
  | priority (header : FrameHeader) (payload : PayloadStage) (stage : InPayload s.client header payload)
      (running : s.client.stopped = false) (bytes : s.client.rbuf ≠ []) (type : header.type = .headers)
      (isOpen : (s.client.findStream header.streamId).isSome) (cut : PriorityCut header.flags s.client.rbuf payload)
  /-- a GOAWAY frame is cut behind its first eight bytes: the loop does not end -/
  | goaway (header : FrameHeader) (payload : PayloadStage) (stage : InPayload s.client header payload)
      (running : s.client.stopped = false) (type : header.type = .goaway) (more : 8 ≤ s.client.rbuf.length)
      (cut : s.client.rbuf.length < header.length)

/-! ## Complete frames -/

/-- The unprocessed input has a complete frame. -/
def Waiting (c : Client) : Prop :=
  match c.parserStage with
  | .header =>
    FrameHeader.neededWriteSize + (FrameHeader.ofBuffer (c.rbuf.take FrameHeader.neededWriteSize)).length ≤ c.rbuf.length
  | .payload payload => payload.totalSize ≤ payload.consumedSize + c.rbuf.length

/-- A SETTINGS frame without values that is to be acknowledged. -/
structure EmptySettings (header : FrameHeader) : Prop where
  type : header.type = .settings
  length : header.length = 0
  ack : hasFlag header.flags settingsAckFlag = false

/-- When `parse_frames` returns no complete frame waits, and a SETTINGS frame without values is acknowledged in the pass
behind its header. -/
structure FramesServed (c : Client) : Prop where
  returns : ∀ c' ec, c.ParsesTo (c', ec) → failed ec = false → c'.stopped = false → ¬Waiting c'
  settings : ∀ s header payload, Visits parsePass { client := c } s → InPayload s.client header payload →
    EmptySettings header → s.client.stopped = false → ∃ t, parsePass s = .next t ∧ t.client.parserStage = .header ∧
      t.client.rbuf = s.client.rbuf ∧ t.client.pendingSettingsAcks = (s.client.pendingSettingsAcks + 1) % 2 ^ 32

/-- The part of a header block that the bytes in the buffer add. -/
def blockFragment (header : FrameHeader) (rbuf : Bytes) (payload : PayloadStage) : Bytes :=
  match header.type with
  | .headers => (readFrame header.flags rbuf payload).data
  | .continuation => rbuf.take (payload.totalSize - payload.consumedSize)
  | _ => []

/-- The header block that ends with this frame is refused, which closes its stream. -/
structure Refused (c : Client) (header : FrameHeader) (payload : PayloadStage) : Prop where
  type : header.type = .headers ∨ header.type = .continuation
  endHeaders : hasFlag header.flags endHeadersFlag = true
  refused : ∃ it, c.findStream header.streamId = some it ∧
    ({ c with hpackReadBuff := c.hpackReadBuff ++ blockFragment header c.rbuf payload }.handleHeadersBlock
      header.flags it).2 = (false, none)

/-- The padding of a frame on an open stream leaves room for the priority, and the bytes that are there do not end
inside it. -/
def PaddingWhole (c : Client) (header : FrameHeader) (payload : PayloadStage) : Prop :=
  header.type = .headers ∨ header.type = .data → (c.findStream header.streamId).isSome →
    ¬PaddingWraps header.flags c.rbuf payload ∧ ¬PaddingCut header.flags c.rbuf payload

/-- The states in which a pass delays no frame: a SETTINGS frame without values has six bytes behind it, a header block
that is refused has something behind it, and the padding is whole. -/
structure Timely (s : ParseState) : Prop where
  settings : ∀ header payload, InPayload s.client header payload → EmptySettings header → 6 ≤ s.client.rbuf.length
  block : ∀ header payload, InPayload s.client header payload → Refused s.client header payload →
    payload.consumedSize + s.client.rbuf.length ≠ payload.totalSize
  padding : ∀ header payload, InPayload s.client header payload → PaddingWhole s.client header payload

/-! ## The bytes of a frame -/

/-- The part of a run that belongs to the frame whose header was accepted in the pass before `t`: `n` of the bytes have
left the buffer, and its passes all begin in states that are `ok`. -/
inductive FrameRun (ok : ParseState → Prop) (t : ParseState) : Nat → ParseState → Prop where
  | start : FrameRun ok t 0 t
  | pass {n : Nat} {s u : ParseState} {payload : PayloadStage} (h : FrameRun ok t n s)
      (hstage : s.client.parserStage = .payload payload) (hok : ok s) (hpass : parsePass s = .next u) :
      FrameRun ok t (n + (s.client.rbuf.length - u.client.rbuf.length)) u
  | call {n : Nat} {s : ParseState} {c c' : Client} {ec : Option Error} {payload : PayloadStage} (h : FrameRun ok t n s)
      (hstage : s.client.parserStage = .payload payload) (hok : ok s) (hdone : parsePass s = .done (c, ec))
      (hec : failed ec = false) (hresume : Relation.ReflTransGen Resume c c') : FrameRun ok t n { client := c' }

/-- The lengths that `read_data_content` and `read_padding_content` work with are what they are meant to be. -/
structure NoWrap (flags : UInt8) (payload : PayloadStage) : Prop where
  total : dataLen flags payload + prefixSize flags + payload.padding.toNat = payload.totalSize
  consumed : consumedData flags payload + prefixSize flags = payload.consumedSize
  le : consumedData flags payload ≤ dataLen flags payload

/-- With `n` bytes of the frame read, the stage counts them, the lengths do not wrap around, and the next pass fails or
takes bytes of this frame alone: all of them when they are there, some of them when something is. -/
structure FrameExact (header : FrameHeader) (n : Nat) (u : ParseState) : Prop where
  le : n ≤ header.length
  ended : u.client.parserStage = .header → n = header.length
  counted : ∀ payload, u.client.parserStage = .payload payload → u.client.lastHeader = some header ∧
    payload.totalSize = header.length ∧ payload.consumedSize = n
  noWrap : ∀ payload, u.client.parserStage = .payload payload → (u.client.findStream header.streamId).isSome →
    let r := (readPaddingLength header.flags u.client.rbuf payload).andThen (readPriority header.flags)
    r.res = true → failed r.ec = false →
      NoWrap header.flags r.payload ∧ NoWrap header.flags (readDataContent header.flags r.rbuf r.payload).payload
  next : ∀ payload, u.client.parserStage = .payload payload → Runs u →
    (∃ c ec, parsePass u = .done (c, ec) ∧ failed ec = true) ∨
    ∃ m v, parsePass u = .next v ∧ v.client.rbuf = u.client.rbuf.drop m ∧ n + m ≤ header.length ∧
      (header.length ≤ n + u.client.rbuf.length → n + m = header.length) ∧
      (u.client.rbuf ≠ [] → n < header.length → 0 < m)

/-- The states in which a pass reads of a frame what belongs to it: the padding is whole, and the priority is not cut. -/
structure Whole (s : ParseState) : Prop where
  padding : ∀ header payload, InPayload s.client header payload → PaddingWhole s.client header payload
  priority : ∀ header payload, InPayload s.client header payload → (s.client.findStream header.streamId).isSome →
    s.client.rbuf ≠ [] → ¬PriorityCut header.flags s.client.rbuf payload

end Rad.Http2
