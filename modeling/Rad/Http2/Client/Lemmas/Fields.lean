import Rad.Http2.Client.Lemmas.Streams
import Rad.Http2.Client.SendQueue
import Rad.Lib.FirstMatch

/-!
# The fields that an operation changes

Operations on streams change the lists of streams and the queue of resets alone. The payload of a frame other than
SETTINGS and PING changes the parser's own fields besides.
-/

namespace Rad.Http2.Client

/-! ## Streams -/

/-- Only the lists of streams and the queue of resets are changed. -/
def StreamsOnly (c c' : Client) : Prop :=
  ∃ openStreams closedStreams pendingRstStreams closedAStream,
    c' = { c with openStreams, closedStreams, pendingRstStreams, closedAStream }

namespace StreamsOnly

variable {c c' c'' : Client}

theorem refl (c : Client) : StreamsOnly c c := ⟨_, _, _, _, rfl⟩

theorem trans (h : StreamsOnly c c') (h' : StreamsOnly c' c'') : StreamsOnly c c'' := by
  obtain ⟨_, _, _, _, rfl⟩ := h
  obtain ⟨_, _, _, _, rfl⟩ := h'
  exact ⟨_, _, _, _, rfl⟩

theorem foldl {f : Client → Stream → Client} (hf : ∀ c s, StreamsOnly c (f c s)) (l : List Stream) (c : Client) :
    StreamsOnly c (l.foldl f c) := by
  induction l generalizing c with
  | nil => exact .refl c
  | cons s l ih => exact (hf c s).trans (ih _)

end StreamsOnly

theorem modifyStream_streamsOnly (c : Client) (id : Nat) (f : Stream → Stream) : StreamsOnly c (c.modifyStream id f) :=
  ⟨_, _, _, _, rfl⟩

theorem closeOpenStream_streamsOnly (c : Client) (id : Nat) (ec : Option Error) (sendRst : Bool) :
    StreamsOnly c (c.closeOpenStream id ec sendRst) := by
  unfold closeOpenStream
  split
  · exact .refl c
  · exact ⟨_, _, _, _, rfl⟩

theorem finishBody_streamsOnly (c : Client) (s : Stream) : StreamsOnly c (c.finishBody s) := by
  unfold finishBody
  split
  · exact .refl c
  · have hmodify := modifyStream_streamsOnly c s.id Stream.sendES
    dsimp only
    split
    · exact hmodify.trans (closeOpenStream_streamsOnly _ _ _ _)
    · exact hmodify

theorem finishBodies_streamsOnly (c : Client) : StreamsOnly c c.finishBodies := .foldl finishBody_streamsOnly _ c

theorem onStreamReceivedHeaders_streamsOnly (c : Client) (id : Nat) (flags : UInt8) :
    StreamsOnly c (c.onStreamReceivedHeaders id flags) := by
  have hrecv : StreamsOnly c (if hasFlag flags endStreamFlag && hasFlag flags endHeadersFlag then
      c.modifyStream id Stream.recvES else c) := by
    split
    · exact modifyStream_streamsOnly c id _
    · exact .refl c
  unfold onStreamReceivedHeaders
  dsimp only
  split
  · split
    · exact hrecv.trans (closeOpenStream_streamsOnly _ _ _ _)
    · exact hrecv
  · exact hrecv

/-! ## Payloads -/

/-- Only the lists of streams, the queue of resets and the parser's own fields are changed. -/
def ParserOnly (c c' : Client) : Prop :=
  ∃ openStreams closedStreams pendingRstStreams closedAStream rbuf parserStage rbufExhausted hpackReadBuff hdecoder
      receivedGoaway goawayReason,
    c' = { c with
      openStreams, closedStreams, pendingRstStreams, closedAStream
      rbuf, parserStage, rbufExhausted, hpackReadBuff, hdecoder, receivedGoaway, goawayReason }

namespace ParserOnly

variable {c c' c'' : Client}

theorem refl (c : Client) : ParserOnly c c := ⟨_, _, _, _, _, _, _, _, _, _, _, rfl⟩

theorem trans (h : ParserOnly c c') (h' : ParserOnly c' c'') : ParserOnly c c'' := by
  obtain ⟨_, _, _, _, _, _, _, _, _, _, _, rfl⟩ := h
  obtain ⟨_, _, _, _, _, _, _, _, _, _, _, rfl⟩ := h'
  exact ⟨_, _, _, _, _, _, _, _, _, _, _, rfl⟩

end ParserOnly

theorem StreamsOnly.parserOnly {c c' : Client} (h : StreamsOnly c c') : ParserOnly c c' := by
  obtain ⟨_, _, _, _, rfl⟩ := h
  exact ⟨_, _, _, _, _, _, _, _, _, _, _, rfl⟩

theorem reads_parserOnly (c : Client) (r : PayloadRead) : ParserOnly c (c.reads r) :=
  ⟨_, _, _, _, _, _, _, _, _, _, _, rfl⟩

theorem discardPayload_parserOnly (c : Client) (payload : PayloadStage) : ParserOnly c (c.discardPayload payload) :=
  ⟨_, _, _, _, _, _, _, _, _, _, _, rfl⟩

/-- A header block changes the streams and the decoder alone. -/
theorem decodeHeadersBlock_only (c : Client) (it : Stream) :
    ∃ hdecoder, StreamsOnly { c with hdecoder } (c.decodeHeadersBlock it).2.2 := by
  unfold decodeHeadersBlock
  split
  · exact ⟨_, .refl _⟩
  · exact ⟨_, _, _, _, _, rfl⟩

theorem handleHeadersBlock_only (c : Client) (flags : UInt8) (it : Stream) :
    ∃ hdecoder, StreamsOnly { c with hdecoder } (c.handleHeadersBlock flags it).1 := by
  obtain ⟨hdecoder, hdecoded⟩ := decodeHeadersBlock_only c it
  refine ⟨hdecoder, ?_⟩
  unfold handleHeadersBlock
  rcases hdecode : c.decodeHeadersBlock it with ⟨res, err, d⟩
  rw [hdecode] at hdecoded
  have hrefuse : StreamsOnly { c with hdecoder } (d.refuseHeadersBlock it.id).1 :=
    hdecoded.trans (closeOpenStream_streamsOnly d it.id _ _)
  have hmodify : ∀ f, StreamsOnly { c with hdecoder } (d.modifyStream it.id f) :=
    fun f => hdecoded.trans (modifyStream_streamsOnly d it.id f)
  cases err with
  | some err => exact hdecoded
  | none =>
      dsimp only
      split
      · exact hrefuse
      · split
        · exact hrefuse
        · split
          · exact hdecoded
          · split
            · split
              · exact hrefuse
              · split
                · exact hrefuse
                · split
                  · exact hrefuse
                  · exact hmodify _
            · exact hmodify _

theorem finishHeadersFrame_only (c : Client) (header : FrameHeader) (it : Stream) :
    ∃ hdecoder parserStage, StreamsOnly { c with hdecoder, parserStage } (c.finishHeadersFrame header it).1 := by
  have hfinish : ∀ {hdecoder} {d : Client}, StreamsOnly { c with hdecoder } d →
      StreamsOnly { c with hdecoder, parserStage := .header }
        { d.onStreamReceivedHeaders it.id header.flags with parserStage := .header } := by
    intro hdecoder d h
    obtain ⟨_, _, _, _, heq⟩ := h.trans (onStreamReceivedHeaders_streamsOnly d it.id header.flags)
    rw [heq]
    exact ⟨_, _, _, _, rfl⟩
  unfold finishHeadersFrame
  dsimp only
  split
  · obtain ⟨hdecoder, hhandle⟩ := handleHeadersBlock_only c header.flags it
    rcases hblock : c.handleHeadersBlock header.flags it with ⟨d, res, ec⟩
    rw [hblock] at hhandle
    cases res with
    | false => exact ⟨hdecoder, c.parserStage, hhandle⟩
    | true => exact ⟨hdecoder, .header, hfinish hhandle⟩
  · exact ⟨c.hdecoder, .header, hfinish (.refl c)⟩

theorem finishHeadersFrame_parserOnly (c : Client) (header : FrameHeader) (it : Stream) :
    ParserOnly c (c.finishHeadersFrame header it).1 := by
  obtain ⟨hdecoder, parserStage, h⟩ := finishHeadersFrame_only c header it
  exact ParserOnly.trans ⟨_, _, _, _, _, _, _, _, _, _, _, rfl⟩ h.parserOnly

theorem processDataFramePayload_parserOnly (c : Client) (header : FrameHeader) (payload : PayloadStage) :
    ParserOnly c (c.processDataFramePayload header payload).1 := by
  unfold processDataFramePayload
  split
  · exact discardPayload_parserOnly c payload
  · dsimp only
    split
    · exact reads_parserOnly c _
    · have hdata : ∀ f r, ParserOnly c ((c.modifyStream header.streamId f).reads r) :=
        fun f r => (modifyStream_streamsOnly c _ f).parserOnly.trans (reads_parserOnly _ r)
      split
      · exact hdata _ _
      · split
        · exact hdata _ _
        · exact ((hdata _ _).trans (onStreamReceivedHeaders_streamsOnly _ _ _).parserOnly).trans
            ⟨_, _, _, _, _, _, _, _, _, _, _, rfl⟩

theorem processHeadersFramePayload_parserOnly (c : Client) (header : FrameHeader) (payload : PayloadStage) :
    ParserOnly c (c.processHeadersFramePayload header payload).1 := by
  have hread : ∀ block r, ParserOnly c ({ c with hpackReadBuff := block }.reads r) :=
    fun block r => ⟨_, _, _, _, _, _, _, _, _, _, _, rfl⟩
  unfold processHeadersFramePayload
  split
  · exact discardPayload_parserOnly c payload
  · dsimp only
    split
    · exact reads_parserOnly c _
    · split
      · exact reads_parserOnly c _
      · split
        · exact hread _ _
        · split
          · exact hread _ _
          · exact (hread _ _).trans (finishHeadersFrame_parserOnly _ _ _)

theorem processContinuationFramePayload_parserOnly (c : Client) (header : FrameHeader) (payload : PayloadStage) :
    ParserOnly c (c.processContinuationFramePayload header payload).1 := by
  unfold processContinuationFramePayload
  split
  · exact discardPayload_parserOnly c payload
  · dsimp only
    split
    · exact ParserOnly.trans ⟨_, _, _, _, _, _, _, _, _, _, _, rfl⟩ (finishHeadersFrame_parserOnly _ _ _)
    · exact ⟨_, _, _, _, _, _, _, _, _, _, _, rfl⟩

/-- The payload of a frame other than SETTINGS and PING changes the streams and the parser's own fields alone. -/
theorem processFramePayload_parserOnly (c : Client) {header : FrameHeader} (payload : PayloadStage)
    (hsettings : header.type ≠ .settings) (hping : header.type ≠ .ping) :
    ParserOnly c (c.processFramePayload header payload).1 := by
  unfold processFramePayload
  cases htype : header.type with
  | data => exact processDataFramePayload_parserOnly c header payload
  | headers => exact processHeadersFramePayload_parserOnly c header payload
  | continuation => exact processContinuationFramePayload_parserOnly c header payload
  | settings => exact absurd htype hsettings
  | ping => exact absurd htype hping
  | priority =>
      simp only [processPriorityFramePayload]
      split
      · exact .refl c
      · exact discardPayload_parserOnly c payload
  | rstStream =>
      simp only [processRstFramePayload]
      split
      · exact ⟨_, _, _, _, _, _, _, _, _, _, _, rfl⟩
      · exact ParserOnly.trans ⟨_, _, _, _, _, _, _, _, _, _, _, rfl⟩ (closeOpenStream_streamsOnly _ _ _ _).parserOnly
  | goaway =>
      simp only [processGoawayFramePayload]
      split <;> exact ⟨_, _, _, _, _, _, _, _, _, _, _, rfl⟩
  | windowUpdate =>
      simp only [processWindowUpdateFramePayload]
      split
      · exact ⟨_, _, _, _, _, _, _, _, _, _, _, rfl⟩
      · split
        · split
          · have hclose : ∀ d : Client, ParserOnly d
                { d.closeOpenStream header.streamId (some .protocolError) true with parserStage := .header } :=
              fun d => (closeOpenStream_streamsOnly d _ _ _).parserOnly.trans ⟨_, _, _, _, _, _, _, _, _, _, _, rfl⟩
            exact ParserOnly.trans ⟨_, _, _, _, _, _, _, _, _, _, _, rfl⟩ (hclose _)
          · exact ⟨_, _, _, _, _, _, _, _, _, _, _, rfl⟩
        · exact ⟨_, _, _, _, _, _, _, _, _, _, _, rfl⟩
  | pushPromise => exact .refl c
  | unknown value => exact .refl c

/-! ## SETTINGS and PING -/

/-- Only what the values of a SETTINGS frame set is changed, and the input. -/
def PeerOnly (c c' : Client) : Prop :=
  ∃ rbuf rbufExhausted hencoder peerMaxPayloadSize peerMaxConcurrentStreams peerMaxHeaderListSize,
    c' = { c with
      rbuf, rbufExhausted, hencoder, peerMaxPayloadSize, peerMaxConcurrentStreams, peerMaxHeaderListSize }

theorem PeerOnly.trans {c c' c'' : Client} (h : PeerOnly c c') (h' : PeerOnly c' c'') : PeerOnly c c'' := by
  obtain ⟨_, _, _, _, _, _, rfl⟩ := h
  obtain ⟨_, _, _, _, _, _, rfl⟩ := h'
  exact ⟨_, _, _, _, _, _, rfl⟩

theorem onReceivedSetting_peerOnly (c : Client) (svalue : SettingValue) :
    PeerOnly c (c.onReceivedSetting svalue).1 := by
  unfold onReceivedSetting
  split
  case h_5 => split <;> exact ⟨_, _, _, _, _, _, rfl⟩
  all_goals exact ⟨_, _, _, _, _, _, rfl⟩

theorem readSettings_peerOnly (c : Client) (payload : PayloadStage) : PeerOnly c (c.readSettings payload).1 := by
  fun_induction readSettings c payload with
  | case1 c payload hlt hshort => exact ⟨_, _, _, _, _, _, rfl⟩
  | case2 c payload hlt hlong svalue next d ec hset =>
      have hone := onReceivedSetting_peerOnly { c with rbuf := c.rbuf.drop SettingValue.neededWriteSize } svalue
      rw [hset] at hone
      exact PeerOnly.trans ⟨_, _, _, _, _, _, rfl⟩ hone
  | case3 c payload hlt hlong svalue next d hset ih =>
      have hone := onReceivedSetting_peerOnly { c with rbuf := c.rbuf.drop SettingValue.neededWriteSize } svalue
      rw [hset] at hone
      exact (PeerOnly.trans ⟨_, _, _, _, _, _, rfl⟩ hone).trans ih
  | case4 c payload hge => exact ⟨_, _, _, _, _, _, rfl⟩

/-- What a pass in the payload stage of a SETTINGS frame comes to. -/
inductive SettingsStep (c : Client) (header : FrameHeader) : Client × Option Error → Prop where
  /-- the frame is not complete, or a value is refused -/
  | reads (d : Client) (payload : PayloadStage) (ec : Option Error) (hpeer : PeerOnly c d) :
      SettingsStep c header ({ d with parserStage := .payload payload }, ec)
  | answers (d : Client) (hpeer : PeerOnly c d) (hack : hasFlag header.flags settingsAckFlag = false) :
      SettingsStep c header
        ({ d with
            parserStage := .header, receivedConnectionSettings := true
            pendingSettingsAcks := (d.pendingSettingsAcks + 1) % 2 ^ 32 }, none)
  | unexpected (d : Client) (hpeer : PeerOnly c d) (hack : hasFlag header.flags settingsAckFlag = true)
      (hnone : d.pendingAckSettings = []) :
      SettingsStep c header
        ({ d with parserStage := .header, receivedConnectionSettings := true }, some .protocolError)
  | applies (d : Client) (oldest : SettingsFrame) (rest : List SettingsFrame) (hpeer : PeerOnly c d)
      (hack : hasFlag header.flags settingsAckFlag = true) (hpending : d.pendingAckSettings = oldest :: rest) :
      SettingsStep c header
        ({ d with
            parserStage := .header, receivedConnectionSettings := true, receivedConnectionSettingsAck := true
            pendingAckSettings := rest }.applyLocalSettings oldest, none)

theorem processSettingsFramePayload_step (c : Client) (header : FrameHeader) (payload : PayloadStage) :
    SettingsStep c header (c.processSettingsFramePayload header payload) := by
  have hpeer := readSettings_peerOnly c payload
  unfold processSettingsFramePayload
  rcases hread : c.readSettings payload with ⟨d, payload', result⟩
  rw [hread] at hpeer
  cases result with
  | exhausted => exact .reads d payload' none hpeer
  | error ec => exact .reads d payload' (some ec) hpeer
  | complete =>
      dsimp only
      split
      · rename_i hack
        exact .answers d hpeer (by simpa using hack)
      · rename_i hack
        split
        · rename_i hnone
          exact .unexpected d hpeer (by simpa using hack) hnone
        · rename_i oldest rest hpending
          exact .applies d oldest rest hpeer (by simpa using hack) hpending

/-- Only what the client's own settings say is changed. -/
def SelfOnly (c c' : Client) : Prop :=
  ∃ hdecoder selfStreamsInitialWindowSize selfMaxPayloadSize selfMaxHeaderListSize,
    c' = { c with hdecoder, selfStreamsInitialWindowSize, selfMaxPayloadSize, selfMaxHeaderListSize }

theorem applyLocalSetting_selfOnly (c : Client) (svalue : SettingValue) : SelfOnly c (c.applyLocalSetting svalue) := by
  unfold applyLocalSetting
  split <;> exact ⟨_, _, _, _, rfl⟩

theorem applyLocalSettings_selfOnly (c : Client) (sframe : SettingsFrame) : SelfOnly c (c.applyLocalSettings sframe) := by
  unfold applyLocalSettings
  induction sframe generalizing c with
  | nil => exact ⟨_, _, _, _, rfl⟩
  | cons svalue sframe ih =>
      obtain ⟨_, _, _, _, hone⟩ := applyLocalSetting_selfOnly c svalue
      obtain ⟨_, _, _, _, hrest⟩ := ih (c.applyLocalSetting svalue)
      rw [hone] at hrest
      rw [List.foldl_cons, hone, hrest]
      exact ⟨_, _, _, _, rfl⟩

/-- What a SETTINGS frame does not change. -/
structure SettingsKeeps (c c' : Client) : Prop where
  openStreams : c'.openStreams = c.openStreams
  closedStreams : c'.closedStreams = c.closedStreams
  pendingRstStreams : c'.pendingRstStreams = c.pendingRstStreams
  pendingPings : c'.pendingPings = c.pendingPings
  windowSize : c'.windowSize = c.windowSize
  hpackReadBuff : c'.hpackReadBuff = c.hpackReadBuff
  lastHeader : c'.lastHeader = c.lastHeader

theorem SettingsStep.settingsKeeps {c : Client} {header : FrameHeader} {r : Client × Option Error}
    (h : SettingsStep c header r) : SettingsKeeps c r.1 := by
  cases h with
  | reads d payload ec hpeer =>
      obtain ⟨_, _, _, _, _, _, rfl⟩ := hpeer
      exact ⟨rfl, rfl, rfl, rfl, rfl, rfl, rfl⟩
  | answers d hpeer hack =>
      obtain ⟨_, _, _, _, _, _, rfl⟩ := hpeer
      exact ⟨rfl, rfl, rfl, rfl, rfl, rfl, rfl⟩
  | unexpected d hpeer hack hnone =>
      obtain ⟨_, _, _, _, _, _, rfl⟩ := hpeer
      exact ⟨rfl, rfl, rfl, rfl, rfl, rfl, rfl⟩
  | applies d oldest rest hpeer hack hpending =>
      obtain ⟨_, _, _, _, _, _, rfl⟩ := hpeer
      dsimp only
      rcases applyLocalSettings_selfOnly _ oldest with ⟨_, _, _, _, heq⟩
      rw [heq]
      exact ⟨rfl, rfl, rfl, rfl, rfl, rfl, rfl⟩

/-! ## Frame headers -/

/-- `received_data` after a frame header. -/
def dataAfter (it : Stream) (header : FrameHeader) : Nat := (it.receivedData + header.length) % 2 ^ 64

/-- The data of the frame stays within the limits on the body of the stream. -/
def dataFits (c : Client) (it : Stream) (header : FrameHeader) : Bool :=
  dataAfter it header ≤ c.maxBodySize && !it.getContentLength.any (dataAfter it header > ·)

/-- What a DATA frame header changes of its stream. -/
def noteData (it : Stream) (header : FrameHeader) (s : Stream) : Stream :=
  { s with receivedData := dataAfter it header, windowSize := wrapInt32 (s.windowSize - header.length) }

theorem modifyStream_modifyStream (c : Client) (id : Nat) {f : Stream → Stream} (hf : ∀ s, (f s).id = s.id)
    (g : Stream → Stream) : (c.modifyStream id f).modifyStream id g = c.modifyStream id (g ∘ f) := by
  have hid : ∀ s : Stream, s.id == id → (f s).id == id := fun s hs => by rwa [hf]
  exact congrArg (fun openStreams => { c with openStreams }) (Lib.modify_modify hid g c.openStreams)

theorem validateData_eq (c : Client) (it : Stream) (header : FrameHeader) :
    c.validateData it header =
      if c.dataFits it header then
        { c.modifyStream header.streamId (noteData it header) with
          windowSize := wrapInt32 (c.windowSize - header.length) }
      else
        (c.modifyStream header.streamId fun s => { s with receivedData := dataAfter it header }).closeOpenStream
          header.streamId (some .frameSizeError) true := by
  by_cases hover : dataAfter it header > c.maxBodySize
  · have hfits : c.dataFits it header = false := by simp [dataFits, hover]
    rw [hfits]
    exact if_pos hover
  · cases hlength : it.getContentLength.any (dataAfter it header > ·) with
    | true =>
        have hfits : c.dataFits it header = false := by simp [dataFits, hlength]
        rw [hfits]
        exact (if_neg hover).trans (if_pos hlength)
    | false =>
        have hfits : c.dataFits it header = true := by simp [dataFits, hlength, Nat.not_lt.1 hover]
        have hnot : ¬it.getContentLength.any (dataAfter it header > ·) = true := by simp [hlength]
        have hmodify := modifyStream_modifyStream c header.streamId
          (f := fun s => { s with receivedData := dataAfter it header }) (fun _ => rfl)
          fun s => { s with windowSize := wrapInt32 (s.windowSize - header.length) }
        rw [hfits, if_pos rfl]
        refine ((if_neg hover).trans (if_neg hnot)).trans ?_
        exact congrArg (fun d => { d with windowSize := wrapInt32 (c.windowSize - header.length) }) hmodify

/-- What an accepted frame header has done. -/
inductive HeaderStep (c : Client) (header : FrameHeader) : Client → Prop where
  /-- the frame is for the connection, or may be sent to a stream that is closed or half closed by the server -/
  | passes (htype : header.type ≠ .data ∧ header.type ≠ .headers ∧ header.type ≠ .continuation) : HeaderStep c header c
  /-- the stream is half closed by the server, and is closed with an error -/
  | late (it : Stream) (hfind : c.findStream header.streamId = some it) (hremote : it.isHalfClosedRemote = true)
      (htype : header.mayBeSentToHalfClosedRemoteStream = false) :
      HeaderStep c header (c.closeOpenStream header.streamId (some .streamClosed) true)
  /-- a header block begins: the response, or the trailers behind the final response -/
  | headers (it : Stream) (hfind : c.findStream header.streamId = some it) (hremote : it.isHalfClosedRemote = false)
      (htype : header.type = .headers)
      (hphase : it.wantsHeaders = true ∨ it.receivedFinalRes = true ∧ it.receivedTrailers = false ∧
        hasFlag header.flags endStreamFlag = true) :
      HeaderStep c header { c.noteHeader it header with hpackReadBuff := [] }
  | data (it : Stream) (hfind : c.findStream header.streamId = some it) (hremote : it.isHalfClosedRemote = false)
      (htype : header.type = .data) (hphase : it.wantsHeaders = false) (hfits : c.dataFits it header = true) :
      HeaderStep c header
        { (c.noteHeader it header).modifyStream header.streamId (noteData it header) with
          windowSize := wrapInt32 (c.windowSize - header.length) }
  /-- the body is too long, and the stream is closed with an error -/
  | overlong (it : Stream) (hfind : c.findStream header.streamId = some it) (hremote : it.isHalfClosedRemote = false)
      (htype : header.type = .data) (hphase : it.wantsHeaders = false) (hfits : c.dataFits it header = false) :
      HeaderStep c header
        (((c.noteHeader it header).modifyStream header.streamId fun s => { s with
          receivedData := dataAfter it header }).closeOpenStream header.streamId (some .frameSizeError) true)
  | other (it : Stream) (hfind : c.findStream header.streamId = some it) (hremote : it.isHalfClosedRemote = false)
      (hheaders : header.type ≠ .headers) (hdata : header.type ≠ .data)
      (hphase : header.type = .continuation → it.wantsHeaders = false) :
      HeaderStep c header (c.noteHeader it header)

theorem validateOpenStream_step {c : Client} {it : Stream} {header : FrameHeader}
    (hfind : c.findStream header.streamId = some it) (hremote : it.isHalfClosedRemote = false)
    (h : (c.validateOpenStream it header).2 = none) : HeaderStep c header (c.validateOpenStream it header).1 := by
  unfold validateOpenStream at h ⊢
  dsimp only at h ⊢
  split at h
  · cases h
  · rename_i hwants
    rw [if_neg hwants]
    split at h
    · cases h
    · rename_i hfinal
      rw [if_neg hfinal]
      split at h
      · cases h
      · rename_i hend
        rw [if_neg hend]
        split at h
        · cases h
        · rename_i hcount
          rw [if_neg hcount]
          by_cases hheaders : header.type = .headers
          · simp only [hheaders, decide_true, Bool.and_true, if_true, Bool.and_eq_true,
              Bool.not_eq_true', Bool.or_eq_true, not_and, not_or, Bool.not_eq_true,
              Bool.not_eq_false] at hfinal hend ⊢
            refine .headers it hfind hremote hheaders ?_
            cases hw : it.wantsHeaders with
            | true => exact .inl rfl
            | false => exact .inr ⟨(hfinal hw).1, (hfinal hw).2, hend hw⟩
          · by_cases hdata : header.type = .data
            · have hphase : it.wantsHeaders = false := by simpa [hheaders, hdata] using hwants
              have hvalidate := validateData_eq (c.noteHeader it header) it header
              have hsame : (c.noteHeader it header).dataFits it header = c.dataFits it header := rfl
              simp only [hdata, if_true]
              rw [hvalidate, hsame]
              cases hfits : c.dataFits it header with
              | true => exact .data it hfind hremote hdata hphase hfits
              | false => exact .overlong it hfind hremote hdata hphase hfits
            · simp only [hheaders, hdata, if_false]
              refine .other it hfind hremote hheaders hdata fun hcont => ?_
              simpa [hheaders, hcont] using hwants

theorem FrameHeader.type_of_stream_zero {header : FrameHeader} {previous : Option FrameHeader}
    {maxSize lastClientId lastServerId : Nat} (hzero : header.streamId = 0)
    (h : header.isValidFrame previous maxSize false false lastClientId lastServerId = true) :
    header.type ≠ .data ∧ header.type ≠ .headers ∧ header.type ≠ .continuation := by
  have hid : header.isValidStreamId false lastClientId lastServerId = true := by
    simp only [FrameHeader.isValidFrame] at h
    by_contra hid
    simp [hid] at h
  simp only [FrameHeader.isValidStreamId, hzero, if_true, FrameHeader.isStreamFrame] at hid
  refine ⟨fun htype => ?_, fun htype => ?_, fun htype => ?_⟩ <;> simp [htype] at hid

theorem validateFrameHeader_step {c : Client} {header : FrameHeader} (h : (c.validateFrameHeader header).2 = none) :
    HeaderStep c header (c.validateFrameHeader header).1 := by
  have hmay : header.mayBeSentToClosedStream = true →
      header.type ≠ .data ∧ header.type ≠ .headers ∧ header.type ≠ .continuation := by
    intro hmay
    refine ⟨fun htype => ?_, fun htype => ?_, fun htype => ?_⟩ <;>
      simp [FrameHeader.mayBeSentToClosedStream, htype] at hmay
  unfold validateFrameHeader at h ⊢
  split at h
  · cases h
  · rename_i hvalid
    rw [if_neg hvalid]
    split at h
    · rename_i hzero
      rw [if_pos hzero]
      exact .passes (FrameHeader.type_of_stream_zero hzero (by simpa using hvalid))
    · rename_i hzero
      rw [if_neg hzero]
      cases hfind : c.findStream header.streamId with
      | none =>
          simp only [hfind] at h
          split at h
          · rename_i hclosed
            rw [if_pos hclosed]
            exact .passes (hmay hclosed)
          · cases h
      | some it =>
          simp only [hfind] at h
          dsimp only
          split at h
          · rename_i hremote
            rw [if_pos hremote]
            split at h
            · rename_i hopen
              rw [if_pos hopen]
              exact .passes (hmay hopen)
            · rename_i hclosed
              rw [if_neg hclosed]
              exact .late it hfind hremote (by simpa using hclosed)
          · rename_i hremote
            rw [if_neg hremote]
            exact validateOpenStream_step hfind (by simpa using hremote) h

/-- An accepted frame header changes the window, the streams and `hpack_read_buff_` alone. -/
theorem HeaderStep.parserOnly {c c' : Client} {header : FrameHeader} (h : HeaderStep c header c') :
    ∃ windowSize, ParserOnly { c with windowSize } c' := by
  cases h with
  | passes htype => exact ⟨_, .refl c⟩
  | late it hfind hremote htype => exact ⟨_, (closeOpenStream_streamsOnly c _ _ _).parserOnly⟩
  | headers it hfind hremote htype hphase =>
      exact ⟨c.windowSize, _, _, _, _, _, _, _, _, _, _, _, rfl⟩
  | data it hfind hremote htype hphase hfits =>
      exact ⟨wrapInt32 (c.windowSize - header.length), _, _, _, _, _, _, _, _, _, _, _, rfl⟩
  | overlong it hfind hremote htype hphase hfits =>
      exact ⟨_, ((modifyStream_streamsOnly c _ _).trans ((modifyStream_streamsOnly _ _ _).trans
        (closeOpenStream_streamsOnly _ _ _ _))).parserOnly⟩
  | other it hfind hremote hheaders hdata hphase => exact ⟨_, (modifyStream_streamsOnly c _ _).parserOnly⟩

/-! ## All passes -/

/-- What no pass of `parse_frames` changes. -/
structure PassKeeps (c c' : Client) : Prop where
  stopped : c'.stopped = c.stopped
  lastClientId : c'.lastClientId = c.lastClientId
  toSendGoawayEc : c'.toSendGoawayEc = c.toSendGoawayEc
  idleStreams : c'.idleStreams = c.idleStreams
  pendingSendSettings : c'.pendingSendSettings = c.pendingSendSettings

theorem ParserOnly.keeps {c c' : Client} (h : ParserOnly c c') : PassKeeps c c' := by
  obtain ⟨_, _, _, _, _, _, _, _, _, _, _, rfl⟩ := h
  exact ⟨rfl, rfl, rfl, rfl, rfl⟩

theorem PassKeeps.trans {c c' c'' : Client} (h : PassKeeps c c') (h' : PassKeeps c' c'') : PassKeeps c c'' :=
  ⟨h'.stopped.trans h.stopped, h'.lastClientId.trans h.lastClientId, h'.toSendGoawayEc.trans h.toSendGoawayEc,
    h'.idleStreams.trans h.idleStreams, h'.pendingSendSettings.trans h.pendingSendSettings⟩

theorem PeerOnly.keeps {c c' : Client} (h : PeerOnly c c') : PassKeeps c c' := by
  obtain ⟨_, _, _, _, _, _, rfl⟩ := h
  exact ⟨rfl, rfl, rfl, rfl, rfl⟩

theorem SelfOnly.keeps {c c' : Client} (h : SelfOnly c c') : PassKeeps c c' := by
  obtain ⟨_, _, _, _, rfl⟩ := h
  exact ⟨rfl, rfl, rfl, rfl, rfl⟩

theorem SettingsStep.keeps {c : Client} {header : FrameHeader} {r : Client × Option Error} (h : SettingsStep c header r) :
    PassKeeps c r.1 := by
  cases h with
  | reads d payload ec hpeer => exact hpeer.keeps.trans ⟨rfl, rfl, rfl, rfl, rfl⟩
  | answers d hpeer hack => exact hpeer.keeps.trans ⟨rfl, rfl, rfl, rfl, rfl⟩
  | unexpected d hpeer hack hnone => exact hpeer.keeps.trans ⟨rfl, rfl, rfl, rfl, rfl⟩
  | applies d oldest rest hpeer hack hpending =>
      refine (hpeer.keeps.trans ?_).trans (applyLocalSettings_selfOnly _ oldest).keeps
      exact ⟨rfl, rfl, rfl, rfl, rfl⟩

theorem processFramePayload_keeps (c : Client) (header : FrameHeader) (payload : PayloadStage) :
    PassKeeps c (c.processFramePayload header payload).1 := by
  by_cases hsettings : header.type = .settings
  · simp only [processFramePayload, hsettings]
    exact (processSettingsFramePayload_step c header payload).keeps
  · by_cases hping : header.type = .ping
    · simp only [processFramePayload, hping, processPingFramePayload]
      split
      · exact ⟨rfl, rfl, rfl, rfl, rfl⟩
      · split
        · exact ⟨rfl, rfl, rfl, rfl, rfl⟩
        · split <;> exact ⟨rfl, rfl, rfl, rfl, rfl⟩
    · exact (processFramePayload_parserOnly c payload hsettings hping).keeps

theorem processFramePayload_lastHeader (c : Client) (header : FrameHeader) (payload : PayloadStage) :
    (c.processFramePayload header payload).1.lastHeader = c.lastHeader := by
  by_cases hsettings : header.type = .settings
  · simp only [processFramePayload, hsettings]
    exact (processSettingsFramePayload_step c header payload).settingsKeeps.lastHeader
  · by_cases hping : header.type = .ping
    · simp only [processFramePayload, hping, processPingFramePayload]
      split
      · rfl
      · split
        · rfl
        · split <;> rfl
    · obtain ⟨_, _, _, _, _, _, _, _, _, _, _, heq⟩ := processFramePayload_parserOnly c payload hsettings hping
      rw [heq]

end Rad.Http2.Client
