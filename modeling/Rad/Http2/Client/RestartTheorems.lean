import Rad.Http2.Client.Lemmas.Restart
import Rad.Http2.Client.Trace

/-!
# Restarted streams

A redirected request is queued with the stream of the response that redirected it. The stream that takes its place in
the comparison is newly constructed, and what is compared is how the client treats the frames that come after.
-/

namespace Rad.Http2

open Hpack Http Lib

/-! ## What is compared -/

/-- A newly constructed stream with the parameters of `s`. -/
def Stream.anew (s : Stream) : Stream :=
  { method := s.method, path := s.path, hdrs := s.hdrs, body := s.body, resBuff := s.resBuff }

/-- What is seen of a stream: all but its counters. -/
def Stream.seen (s : Stream) : Stream := { s with windowSize := 0, receivedData := 0, receivedContinuations := 0 }

def Client.seen (c : Client) : Client :=
  { c with
    idleStreams := c.idleStreams.map Stream.seen, openStreams := c.openStreams.map Stream.seen
    closedStreams := c.closedStreams.map Stream.seen }

namespace System

/-- The error with which the next pass of `parse_frames` ends. -/
def nextError (s : System) : Option Error :=
  match parsePass s.parseState with
  | .next _ => none
  | .done r => r.2

/-- How a sequence of actions is treated, if all of them can be taken: the frames that are sent, what is then seen of the
client, and the error that comes next. -/
def treats (s : System) (as : List Action) : Option (List (List SentFrame) × Client × Option Error) :=
  (execute step s as).map fun r => (r.1.map Transition.output, r.2.client.seen, r.2.nextError)

end System

/-- In every run, whatever comes after, the restarted stream is treated as a new one. -/
def Stream.RestartsClean (s : Stream) : Prop :=
  ∀ xs sys, SystemRun xs sys → ∀ as : List Action,
    sys.treats (.request s.restart :: as) = sys.treats (.request s.anew :: as)

/-! ## Without data -/

theorem Stream.seen_forget (s : Stream) : s.forget.seen = s.seen := rfl

theorem Client.seen_forget (c : Client) : c.forget.seen = c.seen := by
  simp only [seen, forget, List.map_map]
  rfl

theorem System.nextError_forget (s : System) : s.forget.nextError = s.nextError := by
  have hpass := parsePass_eq_forget s.parseState
  unfold nextError
  rw [show s.forget.parseState = { s.parseState with client := s.parseState.client.forget } from rfl]
  generalize parsePass s.parseState = p at hpass ⊢
  generalize parsePass { s.parseState with client := s.parseState.client.forget } = q at hpass ⊢
  cases p with
  | next t =>
      cases q with
      | next u => rfl
      | done r => cases hpass
  | done r =>
      cases q with
      | next u => cases hpass
      | done r' => exact (congrArg Prod.snd (Pass.done.inj hpass)).symm

theorem System.treats_congr {s t : System} (h : s.forget = t.forget) (as : List Action) : s.treats as = t.treats as := by
  have hsame := congrArg (Option.map fun r : List (List SentFrame) × System => (r.1, r.2.client.seen, r.2.nextError))
    (execute_congr System.step_eq_forget h as)
  rw [Option.map_map, Option.map_map] at hsame
  have hview (r : List Step × System) : ((r.1.map Transition.output, r.2.forget.client.seen, r.2.forget.nextError) :
      List (List SentFrame) × Client × Option Error) = (r.1.map Transition.output, r.2.client.seen, r.2.nextError) := by
    rw [System.nextError_forget, show r.2.forget.client.seen = r.2.client.seen from Client.seen_forget _]
  unfold treats
  simpa only [Function.comp_def, hview] using hsame

theorem System.treats_cons_congr {s : System} {a b : Action}
    (h : (s.step a).map forgetStep = (s.step b).map forgetStep) (as : List Action) :
    s.treats (a :: as) = s.treats (b :: as) := by
  unfold treats execute
  cases ha : s.step a with
  | none =>
      rw [ha] at h
      rw [Option.map_eq_none_iff.1 h.symm]
  | some r =>
      obtain ⟨t, out⟩ := r
      rw [ha] at h
      obtain ⟨⟨u, out'⟩, hb, heq⟩ := Option.map_eq_some_iff.1 h.symm
      obtain ⟨hstate, hout⟩ := Prod.mk.inj heq
      cases hout
      have hrest := congrArg (Option.map fun r : List (List SentFrame) × Client × Option Error => (out :: r.1, r.2))
        (treats_congr hstate.symm as)
      unfold treats at hrest
      rw [hb]
      dsimp only
      rw [Option.map_map, Option.map_map] at hrest ⊢
      exact hrest

theorem Stream.restart_isRequest (s : Stream) : s.restart.isRequest = true := rfl

theorem Stream.anew_isRequest (s : Stream) : s.anew.isRequest = true := rfl

/-- A stream that has not counted any data is like a new one: its other counters are set before they are read. -/
theorem Stream.restartsClean (s : Stream) (h : s.receivedData = 0) : s.RestartsClean := by
  intro xs sys _ as
  have hqueued : s.restart.forgetQueued = s.anew.forgetQueued := by
    simp only [forgetQueued, forget, restart, anew, h, if_true]
    rfl
  have henabled : Action.enabled sys (.request s.restart) = Action.enabled sys (.request s.anew) := rfl
  have hclient : (Action.perform sys.client (.request s.restart)).1.forget =
      (Action.perform sys.client (.request s.anew)).1.forget := by
    simp only [Action.perform, Client.forget, List.map_append, List.map_singleton, hqueued]
  refine System.treats_cons_congr ?_ as
  have hstep (r : Stream) : (sys.step (.request r)).map System.forgetStep =
      if !Action.enabled sys (.request r) then none
      else if sys.parsing.isSome then none
      else some ({ sys with client := (Action.perform sys.client (.request r)).1.forget }, []) := by
    unfold System.step
    simp only [reduceCtorEq, if_false, apply_ite (Option.map System.forgetStep), decide_false, Bool.or_false]
    rfl
  rw [hstep, hstep, henabled, hclient]

/-! ## With data -/

deriving instance DecidableEq for HpackEncoder
deriving instance DecidableEq for HpackDecoder
deriving instance DecidableEq for Client
deriving instance DecidableEq for System

/-- A server that is connected, with a client that does not take any body. -/
def servedActions : List Action :=
  [.connect, .read [0, 0, 6, 4, 0, 0, 0, 0, 0, 0, 1, 0, 0, 16, 0], .pass, .pass, .pass, .flush, .maxBodySize 0]

def served : System where
  connected := true
  client := {
    pendingAckSettings := [Client.connectSettings]
    maxBodySize := 0
    lastHeader := some { type := .settings, length := 6 }
    receivedConnectionSettings := true
    hencoder := ({} : HpackEncoder).setMaxTableSize 4096
    hdecoder := ({} : HpackDecoder).setMaxTableSize 4096 }

theorem served_reached : ∃ xs, SystemRun xs served := by
  have hexecute : (execute System.step {} servedActions).map (·.2) = some served := by decide +kernel
  obtain ⟨xs, t, hrun, rfl⟩ := exists_run_of_map_execute hexecute
  exact ⟨xs, hrun⟩

section Exchange

variable {r : Stream} {state : StreamState} {e : HpackEncoder}

/-- The stream of a request, opened with the first identifier. -/
def Stream.sent (r : Stream) (state : StreamState) : Stream :=
  { r with
    res := {}, id := 1, windowSize := 16 * 1024, state, wantsHeaders := true, receivedFinalRes := false
    receivedTrailers := false }

/-- A response without header fields: a HEADERS frame, and an empty DATA frame. -/
def emptyResponse : Bytes := [0, 0, 1, 1, 4, 0, 0, 0, 1, 0x88, 0, 0, 0, 0, 0, 0, 0, 0, 1]

def emptyResponseHeaders : FrameHeader := { type := .headers, flags := endHeadersFlag, streamId := 1, length := 1 }

def emptyResponseData : FrameHeader := { type := .data, streamId := 1 }

def okResponse : Response := { status := 200, version := .v1_1 }

/-- The request is queued. -/
def queued (r : Stream) : System := { served with client := { served.client with idleStreams := [r] } }

/-- The request is sent. -/
def opened (r : Stream) (state : StreamState) (e : HpackEncoder) (rbuf : Bytes) : System :=
  { served with
    client := { served.client with lastClientId := 1, hencoder := e, rbuf, openStreams := [r.sent state] } }

/-- The header of the HEADERS frame is read. -/
def noted (r : Stream) (state : StreamState) (e : HpackEncoder) : System :=
  { served with
    parsing := some false
    client := { served.client with
      lastClientId := 1, hencoder := e, rbuf := emptyResponse.drop 9, lastHeader := some emptyResponseHeaders
      parserStage := .payload { totalSize := 1 }
      openStreams := [{ r.sent state with wantsHeaders := false, receivedContinuations := 0 }] } }

/-- The stream has its response. -/
def Stream.answered (r : Stream) (state : StreamState) : Stream :=
  { r.sent state with wantsHeaders := false, receivedContinuations := 0, receivedFinalRes := true, res := okResponse }

/-- The HEADERS frame is read. -/
def answered (r : Stream) (state : StreamState) (e : HpackEncoder) : System :=
  { served with
    parsing := some false
    client := { served.client with
      lastClientId := 1, hencoder := e, rbuf := emptyResponse.drop 10, hpackReadBuff := [0x88]
      lastHeader := some emptyResponseHeaders, openStreams := [r.answered state] } }

theorem step_request (h : r.isRequest = true) : served.step (.request r) = some (queued r, []) := by
  simp only [System.step, Action.enabled, h]
  rfl

theorem step_sendRequest (h : r.isRequest = true) (hres : r.res = {}) :
    ∃ state e out, (state = .open ∨ state = .halfClosedLocal) ∧
      (queued r).step .sendRequest = some (opened r state e [], out) := by
  obtain ⟨method, path, hdrs, body, res, resBuff, rstEc, id, windowSize, rd, rc, state', wh, rf, rt⟩ := r
  cases hres
  simp only [Stream.isRequest, Bool.and_eq_true, decide_eq_true_eq, Option.isNone_iff_eq_none, Bool.not_eq_true'] at h
  obtain ⟨⟨⟨⟨⟨rfl, rfl⟩, rfl⟩, rfl⟩, rfl⟩, rfl⟩ := h
  generalize hr : Stream.mk _ _ _ _ _ _ _ _ _ _ _ _ _ _ _ = r
  have hstep (c : Client) (frames : List (Bytes × Bytes)) (hsend : (queued r).client.sendOneStreamRequest = (c, frames)) :
      (queued r).step .sendRequest =
        some ({ queued r with client := c }, frames.map fun frame => .headers frame.1 frame.2) := by
    have hperform : Action.perform (queued r).client .sendRequest =
        (c, frames.map fun frame => .headers frame.1 frame.2) := by
      unfold Action.perform
      rw [hsend]
    unfold System.step
    rw [show Action.enabled (queued r) .sendRequest = true from rfl, hperform]
    rfl
  have hsend (state : StreamState) (hopened : Client.openedStream r 1 (16 * 1024) = r.sent state) :
      ∃ e frames, (queued r).client.sendOneStreamRequest = ((opened r state e []).client, frames) := by
    have hwindow : wrapInt32 (served.client.selfStreamsInitialWindowSize : Int) = 16 * 1024 := by decide
    unfold opened Client.sendOneStreamRequest
    rw [← hopened, show (queued r).client.idleStreams = [r] from rfl,
      show (queued r).client.makeNewStreamId = (1, { (queued r).client with lastClientId := 1 }) from rfl]
    dsimp only
    rw [if_neg (by decide),
      show wrapInt32 ((queued r).client.selfStreamsInitialWindowSize : Int) = 16 * 1024 from hwindow]
    exact ⟨_, _, rfl⟩
  by_cases hb : body.length % 2 ^ 32 = 0
  · obtain ⟨e, frames, hsent⟩ := hsend .halfClosedLocal (hr ▸ if_pos hb)
    exact ⟨_, e, _, .inr rfl, hstep _ _ hsent⟩
  · obtain ⟨e, frames, hsent⟩ := hsend .open (hr ▸ if_neg hb)
    exact ⟨_, e, _, .inl rfl, hstep _ _ hsent⟩

theorem step_read : (opened r state e []).step (.read emptyResponse) = some (opened r state e emptyResponse, []) := rfl

theorem System.step_pass_next {s : System} {u : ParseState} (hconnected : s.connected = true)
    (hpass : parsePass s.parseState = .next u) :
    s.step .pass = some ({ s with client := u.client, parsing := some u.hasZeroPayload }, []) := by
  have hstep : s.passStep = some { s with client := u.client, parsing := some u.hasZeroPayload } := by
    unfold System.passStep
    rw [hpass]
  unfold System.step
  rw [hstep]
  simp [Action.enabled, hconnected]

theorem Client.parseHeader_next {c d : Client} {header : FrameHeader} (hlen : ¬c.rbuf.length < FrameHeader.neededWriteSize)
    (hheader : FrameHeader.ofBuffer (c.rbuf.take FrameHeader.neededWriteSize) = header)
    (hvalid : { c with rbuf := c.rbuf.drop FrameHeader.neededWriteSize }.validateFrameHeader header = (d, none)) :
    c.parseHeader = .next (d.acceptHeader header) := by
  unfold Client.parseHeader
  rw [if_neg hlen]
  dsimp only
  rw [hheader, hvalid]

theorem parsePass_payload {s : ParseState} {payload : PayloadStage}
    (hruns : ¬(s.client.stopped || (s.client.rbuf.isEmpty && !s.hasZeroPayload)) = true)
    (hstage : s.client.parserStage = .payload payload) :
    parsePass s = s.client.parsePayload (s.client.lastHeader.getD {}) payload := by
  unfold parsePass
  dsimp only
  rw [if_neg hruns, hstage]

/-- The header of the HEADERS frame. -/
theorem step_headers (hstate : state = .open ∨ state = .halfClosedLocal) :
    (opened r state e emptyResponse).step .pass = some (noted r state e, []) := by
  have hlen : ¬emptyResponse.length < 9 := by decide
  have hheader : FrameHeader.ofBuffer (emptyResponse.take 9) = emptyResponseHeaders := by decide
  refine System.step_pass_next (u := ⟨(noted r state e).client, false⟩) rfl ?_
  refine Client.parseHeader_next (c := (opened r state e emptyResponse).client)
    (d := { (noted r state e).client with parserStage := .header, lastHeader := served.client.lastHeader }) hlen hheader ?_
  rcases hstate with rfl | rfl
  · rfl
  · rfl

/-- The byte of the header block is taken out of the buffer. -/
theorem readDataContent_emptyResponse : readDataContent 4 (0x88 :: emptyResponse.drop 10) { totalSize := 1 } =
    ⟨true, none, emptyResponse.drop 10, { totalSize := 1, consumedSize := 1 }, [0x88]⟩ := by
  have hpadded : hasFlag 4 paddedFlag = false := by decide
  have hpriority : hasFlag 4 priorityFlag = false := by decide
  simp [readDataContent, consumedData, dataLen, subSize, addSize, hpadded, hpriority, emptyResponse]

theorem readPaddingContent_emptyResponse :
    readPaddingContent 4 (emptyResponse.drop 10) { totalSize := 1, consumedSize := 1 } =
      ⟨true, none, emptyResponse.drop 10, { totalSize := 1, consumedSize := 1 }, []⟩ := by
  have hpadded : hasFlag 4 paddedFlag = false := by decide
  have hpriority : hasFlag 4 priorityFlag = false := by decide
  simp [readPaddingContent, consumedData, dataLen, subSize, hpadded, hpriority]

/-- The block is decoded. -/
theorem decodeResponse_emptyResponse :
    served.client.hdecoder.decodeResponse [0x88] {} = (okResponse, none, served.client.hdecoder) := by decide +kernel

/-- The client with the header block in its buffer. -/
def withBlock (r : Stream) (state : StreamState) (e : HpackEncoder) : Client :=
  { (noted r state e).client with
    hpackReadBuff := [0x88], rbuf := emptyResponse.drop 10, parserStage := .payload { totalSize := 1, consumedSize := 1 } }

theorem finishHeadersFrame_emptyResponse (hstate : state = .open ∨ state = .halfClosedLocal) :
    (withBlock r state e).finishHeadersFrame emptyResponseHeaders
      { r.sent state with wantsHeaders := false, receivedContinuations := 0 } = ((answered r state e).client, none) := by
  have hdecode : (withBlock r state e).decodeHeadersBlock
      { r.sent state with wantsHeaders := false, receivedContinuations := 0 } =
      (okResponse, none, { withBlock r state e with
        openStreams := [{ r.sent state with wantsHeaders := false, receivedContinuations := 0, res := okResponse }] }) :=
    congrArg (fun d : Response × Option DecodeError × HpackDecoder => (d.1, d.2.1,
      ({ (withBlock r state e).modifyStream 1 (fun s => { s with res := d.1 }) with hdecoder := d.2.2 } : Client)))
      decodeResponse_emptyResponse
  unfold Client.finishHeadersFrame Client.handleHeadersBlock
  rw [hdecode]
  rcases hstate with rfl | rfl
  · rfl
  · rfl

theorem processHeaders_emptyResponse (hstate : state = .open ∨ state = .halfClosedLocal) :
    (noted r state e).client.processHeadersFramePayload emptyResponseHeaders { totalSize := 1 } =
      ((answered r state e).client, none) := by
  unfold Client.processHeadersFramePayload
  rw [show (noted r state e).client.findStream emptyResponseHeaders.streamId =
      some { r.sent state with wantsHeaders := false, receivedContinuations := 0 } from rfl,
    show (noted r state e).client.rbuf = 0x88 :: emptyResponse.drop 10 from rfl,
    show emptyResponseHeaders.flags = 4 from rfl]
  dsimp only
  rw [show readPaddingLength 4 (0x88 :: emptyResponse.drop 10) { totalSize := 1 } =
    ⟨true, none, 0x88 :: emptyResponse.drop 10, { totalSize := 1 }, []⟩ from rfl]
  dsimp only
  rw [show readPriority 4 (0x88 :: emptyResponse.drop 10) { totalSize := 1 } =
    ⟨true, none, 0x88 :: emptyResponse.drop 10, { totalSize := 1 }, []⟩ from rfl]
  dsimp only
  rw [readDataContent_emptyResponse]
  dsimp only
  rw [readPaddingContent_emptyResponse]
  exact finishHeadersFrame_emptyResponse hstate

/-- The header block. -/
theorem step_block (hstate : state = .open ∨ state = .halfClosedLocal) :
    (noted r state e).step .pass = some (answered r state e, []) := by
  refine System.step_pass_next (u := ⟨(answered r state e).client, false⟩) rfl ?_
  have hpayload : (noted r state e).client.parsePayload emptyResponseHeaders { totalSize := 1 } =
      .next ⟨(answered r state e).client, false⟩ := by
    unfold Client.parsePayload Client.processFramePayload
    rw [if_neg (Nat.not_lt_zero _), show emptyResponseHeaders.type = .headers from rfl]
    dsimp only
    rw [processHeaders_emptyResponse hstate]
    rfl
  have hruns : ¬(false || ((0x88 :: emptyResponse.drop 10 : Bytes).isEmpty && !false)) = true := by decide
  exact (parsePass_payload (s := (noted r state e).parseState) hruns rfl).trans hpayload

/-- The header of the empty DATA frame: nothing is added to what the stream has counted, which is too much. -/
theorem validateFrameHeader_emptyResponse (hstate : state = .open ∨ state = .halfClosedLocal)
    (hdata : r.receivedData < 2 ^ 64) :
    ∃ d, { (answered r state e).client with rbuf := [] }.validateFrameHeader emptyResponseData = (d, none) ∧
      d.openStreams.isEmpty = decide (r.receivedData ≠ 0) := by
  have hcounted (d : Client) (hd : d = { (answered r state e).client with
      rbuf := [], openStreams := [{ r.answered state with receivedData := r.receivedData % 2 ^ 64 }] }) :
      { (answered r state e).client with rbuf := [] }.validateFrameHeader emptyResponseData =
        (if r.receivedData % 2 ^ 64 > 0 then d.closeOpenStream 1 (some .frameSizeError) true
          else { d.modifyStream 1 (fun s => { s with windowSize := wrapInt32 (s.windowSize - 0) }) with
            windowSize := wrapInt32 (served.client.windowSize - 0) }, none) := by
    rw [hd]
    rcases hstate with rfl | rfl
    · rfl
    · rfl
  refine ⟨_, hcounted _ rfl, ?_⟩
  rw [Nat.mod_eq_of_lt hdata]
  by_cases h : r.receivedData = 0
  · rw [h, if_neg (Nat.lt_irrefl 0)]
    rfl
  · rw [if_pos (Nat.pos_of_ne_zero h), decide_eq_true h]
    rfl

theorem step_data (hstate : state = .open ∨ state = .halfClosedLocal) (hdata : r.receivedData < 2 ^ 64) :
    ∃ s, (answered r state e).step .pass = some (s, []) ∧
      s.client.openStreams.isEmpty = decide (r.receivedData ≠ 0) := by
  have hlen : ¬(emptyResponse.drop 10).length < 9 := by decide
  have hheader : FrameHeader.ofBuffer ((emptyResponse.drop 10).take 9) = emptyResponseData := by decide
  obtain ⟨d, hvalid, hempty⟩ := validateFrameHeader_emptyResponse (r := r) (e := e) hstate hdata
  have hpass : parsePass (answered r state e).parseState = .next (d.acceptHeader emptyResponseData) :=
    Client.parseHeader_next (c := (answered r state e).client) hlen hheader hvalid
  exact ⟨_, System.step_pass_next rfl hpass, hempty⟩

theorem execute_emptyResponse (h : r.isRequest = true) (hres : r.res = {}) (hdata : r.receivedData < 2 ^ 64) :
    (execute System.step served [.request r, .sendRequest, .read emptyResponse, .pass, .pass, .pass]).map
      (fun x => x.2.client.openStreams.isEmpty) = some (decide (r.receivedData ≠ 0)) := by
  obtain ⟨state, e, out, hstate, hsend⟩ := step_sendRequest h hres
  obtain ⟨s, hdone, hempty⟩ := step_data (r := r) (e := e) hstate hdata
  simp only [execute, step_request h, hsend, step_read, step_headers hstate, step_block hstate, hdone, Option.map_some,
    hempty]

end Exchange

/-- What is counted for the first response is counted for the next one, too. -/
theorem Stream.not_restartsClean {s : Stream} (hdata : s.receivedData < 2 ^ 64) (h : s.receivedData ≠ 0) :
    ¬s.RestartsClean := by
  intro hclean
  obtain ⟨xs, hrun⟩ := served_reached
  have hsame := congrArg (Option.map fun r : List (List SentFrame) × Client × Option Error => r.2.1.openStreams.isEmpty)
    (hclean xs served hrun [.sendRequest, .read emptyResponse, .pass, .pass, .pass])
  unfold System.treats at hsame
  rw [Option.map_map, Option.map_map] at hsame
  have hseen (r : List Step × System) : r.2.client.seen.openStreams.isEmpty = r.2.client.openStreams.isEmpty :=
    List.isEmpty_map
  simp only [Function.comp_def, hseen] at hsame
  rw [execute_emptyResponse s.restart_isRequest rfl hdata,
    execute_emptyResponse s.anew_isRequest rfl (Nat.two_pow_pos 64)] at hsame
  simp [Stream.restart, Stream.anew, h] at hsame

/-- The counter of the data is what `restart` forgets to clear. -/
theorem restarts_clean_iff (s : Stream) (hdata : s.receivedData < 2 ^ 64) : s.RestartsClean ↔ s.receivedData = 0 := by
  constructor
  · intro hclean
    by_contra h
    exact Stream.not_restartsClean hdata h hclean
  · exact s.restartsClean

/-- A stream with CONTINUATION frames and a window, and without data. -/
theorem restarts_clean_iff_no_data :
    ({ path := ascii "/", receivedContinuations := 2, windowSize := 5 } : Stream).RestartsClean :=
  (restarts_clean_iff _ (by decide)).2 rfl

/-- A response with one octet of data, whose stream is closed behind it. -/
def oneOctetResponseActions : List Action :=
  [.connect, .read [0, 0, 6, 4, 0, 0, 0, 0, 0, 0, 1, 0, 0, 16, 0], .pass, .pass, .pass, .flush,
    .request { method := .get, path := ascii "/" }, .sendRequest,
    .read [0, 0, 1, 1, 4, 0, 0, 0, 1, 0x88, 0, 0, 1, 0, 1, 0, 0, 0, 1, 65], .pass, .pass, .pass, .pass, .pass]

theorem restarts_with_received_data :
    ¬∀ xs sys (s : Stream), SystemRun xs sys → s ∈ sys.client.closedStreams → s.receivedFinalRes = true →
      s.RestartsClean := by
  intro h
  have hexecute : (execute System.step {} oneOctetResponseActions).map (fun r => decide (∃ s ∈ r.2.client.closedStreams,
      s.receivedFinalRes = true ∧ s.receivedData = 1)) = some true := by decide +kernel
  obtain ⟨xs, sys, hrun, hseen⟩ := exists_run_of_map_execute hexecute
  obtain ⟨s, hs, hfinal, hdata⟩ := of_decide_eq_true hseen
  have hlt : s.receivedData < 2 ^ 64 := by rw [hdata]; decide
  exact Stream.not_restartsClean hlt (by omega) (h xs sys s hrun hs hfinal)

end Rad.Http2
