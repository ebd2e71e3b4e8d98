import Rad.Http2.Client.Lemmas.Requested
import Rad.Http2.Client.Lemmas.Window

/-!
# Streams that are reset, windows, and the answers to control frames

The results are about every run of the system: any bytes from the server in any chunks, any requests, and flushes of the
send queue at any time.
-/

namespace Rad.Http2

open Lib Client

/-! ## Streams that are reset -/

/-- A stream that the client has reset is not open, and its identifier is used up. -/
theorem SystemRun.reset_closed {xs : List Step} {s : System} (hrun : SystemRun xs s) {id : Nat} {ec : Error}
    (hreset : (id, ec) ∈ xs.flatMap Step.resets) : id ≤ s.client.lastClientId ∧ id ∉ s.client.streamIds := by
  induction hrun with
  | start => cases hreset
  | next h hstep ih =>
      have hinv := SystemRun.invariant h
      have hgrow := hinv.idsGrow hstep
      rw [List.flatMap_append, List.flatMap_singleton, List.mem_append] at hreset
      rcases hreset with hbefore | hnow
      · exact hgrow.closed (ih hbefore).1 (ih hbefore).2
      · unfold Step.resets at hnow
        split at hnow
        · cases hnow
        · obtain ⟨r, hr, heq⟩ := List.mem_filterMap.1 hnow
          obtain ⟨ec', -, heq⟩ := Option.map_eq_some_iff.1 heq
          cases heq
          obtain ⟨hopen, hgone⟩ := (hinv.closes hstep).1 r hr
          exact ⟨(hinv.parser.ids r.id hopen).trans hgrow.lastClientId, hgone⟩

/-- A frame for a stream that is not open: what may be sent to a closed stream passes and changes nothing, and the frames
of a request or a response are errors. -/
theorem Client.validateFrameHeader_closed {c : Client} {header : FrameHeader} (hclosed : header.streamId ∉ c.streamIds) :
    (header.mayBeSentToClosedStream = true →
      header.isValidFrame c.lastHeader c.selfMaxPayloadSize false false c.lastClientId c.lastServerId = true →
      c.validateFrameHeader header = (c, none)) ∧
    (header.type = .data ∨ header.type = .headers ∨ header.type = .continuation →
      failed (c.validateFrameHeader header).2 = true) := by
  have hfind : c.findStream header.streamId = none := by
    rw [← Option.not_isSome_iff_eq_none]
    exact fun hsome => hclosed (findStream_isSome_iff.1 hsome)
  refine ⟨fun hmay hvalid => ?_, fun htype => ?_⟩
  · simp [validateFrameHeader, hvalid, hfind, hmay]
  · unfold validateFrameHeader
    split
    · rfl
    · rename_i hvalid
      split
      · rename_i hzero
        obtain ⟨hdata, hheaders, hcont⟩ := FrameHeader.type_of_stream_zero hzero (by simpa using hvalid)
        exact absurd htype (by simp [hdata, hheaders, hcont])
      · have hmay : header.mayBeSentToClosedStream = false := by
          rcases htype with htype | htype | htype <;> simp [FrameHeader.mayBeSentToClosedStream, htype]
        simp [hfind, hmay, failed, Error.value]

/-- The frames of a stream behind its reset by the client: a frame that may be sent to a closed stream changes nothing,
and every DATA, HEADERS or CONTINUATION frame is a connection error. -/
theorem frames_of_reset_stream {xs : List Step} {s : System} {id : Nat} {ec : Error} {header : FrameHeader}
    (hrun : SystemRun xs s) (hreset : (id, ec) ∈ xs.flatMap Step.resets) (hid : header.streamId = id) :
    (header.mayBeSentToClosedStream = true →
      header.isValidFrame s.client.lastHeader s.client.selfMaxPayloadSize false false s.client.lastClientId
        s.client.lastServerId = true →
      s.client.validateFrameHeader header = (s.client, none)) ∧
    (header.type = .data ∨ header.type = .headers ∨ header.type = .continuation →
      failed (s.client.validateFrameHeader header).2 = true) := by
  subst hid
  exact Client.validateFrameHeader_closed (hrun.reset_closed hreset).2

/-- A run in which the body of stream 1 is too long while stream 3 is open, up to the state in front of the next frame. -/
def overlongActions : List Action :=
  [.connect, .read [0, 0, 6, 4, 0, 0, 0, 0, 0, 0, 1, 0, 0, 16, 0], .pass, .pass, .pass, .flush,
    .maxBodySize 0, .request { method := .get, path := ascii "/" }, .request { method := .get, path := ascii "/" },
    .sendRequest, .flush, .sendRequest, .flush,
    .read [0, 0, 1, 1, 4, 0, 0, 0, 1, 0x88, 0, 0, 1, 0, 0, 0, 0, 0, 1, 0x41], .pass, .pass, .pass, .pass, .pass]

/-- What is seen of that run: the reset, the state in front of the next frame, and what becomes of two further frames of
stream 1. -/
theorem overlongActions_run : ∃ xs s, SystemRun xs s ∧ xs.flatMap Step.resets = [(1, .frameSizeError)] ∧
    s.client.parserStage = .header ∧ s.client.streamIds = [3] ∧
    (s.client.validateFrameHeader { type := .data, streamId := 1, length := 1 }).2 = some .streamClosed ∧
    FrameHeader.isValidFrame { type := .rstStream, streamId := 1, length := 4 } s.client.lastHeader
      s.client.selfMaxPayloadSize false false s.client.lastClientId s.client.lastServerId = true := by
  have hexecute : (execute System.step {} overlongActions).map (fun r =>
      (r.1.flatMap Step.resets, r.2.client.parserStage, r.2.client.streamIds,
        (r.2.client.validateFrameHeader { type := .data, streamId := 1, length := 1 }).2,
        FrameHeader.isValidFrame { type := .rstStream, streamId := 1, length := 4 } r.2.client.lastHeader
          r.2.client.selfMaxPayloadSize false false r.2.client.lastClientId r.2.client.lastServerId)) =
      some ([(1, .frameSizeError)], .header, [3], some .streamClosed, true) := by decide +kernel
  obtain ⟨xs, s, hrun, hseen⟩ := exists_run_of_map_execute hexecute
  simp only [Prod.mk.injEq] at hseen
  exact ⟨xs, s, hrun, hseen⟩

theorem frames_of_reset_stream_overlong :
    ∃ xs s, SystemRun xs s ∧ (1, Error.frameSizeError) ∈ xs.flatMap Step.resets ∧
      s.client.validateFrameHeader { type := .rstStream, streamId := 1, length := 4 } = (s.client, none) ∧
      failed (s.client.validateFrameHeader { type := .data, streamId := 1, length := 1 }).2 = true := by
  obtain ⟨xs, s, hrun, hresets, -, -, -, hvalid⟩ := overlongActions_run
  have hreset : (1, Error.frameSizeError) ∈ xs.flatMap Step.resets := by simp [hresets]
  exact ⟨xs, s, hrun, hreset, (frames_of_reset_stream hrun hreset rfl).1 rfl hvalid,
    (frames_of_reset_stream hrun hreset rfl).2 (.inl rfl)⟩

theorem late_data_is_connection_error :
    ∃ xs s, SystemRun xs s ∧ (1, Error.frameSizeError) ∈ xs.flatMap Step.resets ∧ s.client.parserStage = .header ∧
      s.client.streamIds = [3] ∧
      (s.client.validateFrameHeader { type := .data, streamId := 1, length := 1 }).2 = some .streamClosed := by
  obtain ⟨xs, s, hrun, hresets, hstage, hids, hlate, -⟩ := overlongActions_run
  exact ⟨xs, s, hrun, by simp [hresets], hstage, hids, hlate⟩

/-! ## The connection window -/

/-- The connection window as the server sees it. -/
def serverWindow (xs : List Step) : Int := 65535 + (xs.map Step.windowAdded).sum - (xs.map Step.windowTaken).sum

theorem SystemRun.window {xs : List Step} {s : System} (hrun : SystemRun xs s) (hkeeps : ∀ x ∈ xs, x.KeepsWindow) :
    WindowFits s.client ∧
      serverWindow xs - s.client.windowSize + (if s.connected then 0 else defaultClientWindowSize) = 65535 := by
  induction hrun with
  | start => exact ⟨⟨by decide, le_refl _⟩, by decide⟩
  | next h hstep ih =>
      obtain ⟨hfits, hbefore⟩ := ih fun x hx => hkeeps x (List.mem_append_left _ hx)
      obtain ⟨hfits', hstep'⟩ := SystemRun.window_step h hstep
        (hkeeps _ (List.mem_append_right _ (List.mem_singleton_self _))) hfits
      obtain ⟨hconnect, hother⟩ := System.connected_of_step hstep
      refine ⟨hfits', ?_⟩
      simp only [WindowAccounts] at hstep'
      simp only [serverWindow, List.map_append, List.map_singleton, List.sum_append, List.sum_singleton] at hbefore ⊢
      push_cast at hbefore ⊢
      split at hstep'
      · rename_i ha
        rw [(hconnect ha).1] at hbefore
        rw [(hconnect ha).2]
        simp only [Bool.false_eq_true, if_false, if_true] at hbefore ⊢
        omega
      · rename_i ha
        rw [hother ha]
        omega

/-- In every run whose steps keep the window, the server's window and the client's differ by the same amount in every
state behind the preface. -/
theorem window_does_not_leak {xs : List Step} {s : System} (hrun : SystemRun xs s) (hkeeps : ∀ x ∈ xs, x.KeepsWindow)
    (hconnected : s.connected = true) : serverWindow xs - s.client.windowSize = 65535 := by
  have hwindow := (hrun.window hkeeps).2
  rwa [if_pos hconnected, add_zero] at hwindow

/-- A run with a DATA frame that the client takes off its window. -/
def dataActions : List Action :=
  [.connect, .read [0, 0, 6, 4, 0, 0, 0, 0, 0, 0, 1, 0, 0, 16, 0], .pass, .pass, .pass, .flush,
    .request { method := .get, path := ascii "/" }, .sendRequest, .flush,
    .read [0, 0, 1, 1, 4, 0, 0, 0, 1, 0x88, 0, 0, 1, 0, 0, 0, 0, 0, 1, 0x41], .pass, .pass, .pass, .pass, .pass]

example : (execute System.step {} dataActions).isSome = true := by decide +kernel

theorem window_does_not_leak_data : ∃ xs s, SystemRun xs s ∧ xs.flatMap Step.dataReceived = [1] ∧
    s.client.windowSize = 2 ^ 30 - 2 ∧ serverWindow xs - s.client.windowSize = 65535 := by
  have hexecute : (execute System.step {} dataActions).map (fun r => decide
      ((∀ x ∈ r.1, Step.KeepsWindow x) ∧ r.2.connected = true ∧ r.1.flatMap Step.dataReceived = [1] ∧
        r.2.client.windowSize = 2 ^ 30 - 2)) = some true := by decide +kernel
  obtain ⟨xs, s, hrun, hseen⟩ := exists_run_of_map_execute hexecute
  obtain ⟨hkeeps, hconnected, hdata, hsize⟩ := of_decide_eq_true hseen
  exact ⟨xs, s, hrun, hdata, hsize, window_does_not_leak hrun hkeeps hconnected⟩

/-- The body of stream 1 is too long: its DATA frame is not taken off the window of the client. -/
theorem window_leaks_overlong_data : ∃ xs s, SystemRun xs s ∧ s.connected = true ∧ s.client.windowSize = 2 ^ 30 - 1 ∧
    serverWindow xs = 65535 + (2 ^ 30 - 1) - 1 ∧ serverWindow xs - s.client.windowSize ≠ 65535 := by
  have hexecute : (execute System.step {} overlongActions).map (fun r => decide
      (r.2.connected = true ∧ r.2.client.windowSize = 2 ^ 30 - 1 ∧ serverWindow r.1 = 65535 + (2 ^ 30 - 1) - 1)) =
      some true := by decide +kernel
  obtain ⟨xs, s, hrun, hseen⟩ := exists_run_of_map_execute hexecute
  obtain ⟨hconnected, hwindow, hserver⟩ := of_decide_eq_true hseen
  exact ⟨xs, s, hrun, hconnected, hwindow, hserver, by rw [hwindow, hserver]; decide⟩

/-! ## Answers to control frames -/

/-- The count of the acknowledgements to be sent has room for one more at the end of a SETTINGS frame. -/
def Step.CountsSettings (x : Step) : Prop :=
  x.settingsReceived ≠ [] → x.before.client.pendingSettingsAcks + 1 < 2 ^ 32

instance (x : Step) : Decidable x.CountsSettings := inferInstanceAs (Decidable (_ → _))

/-- What is sent and what is still queued answers what is received, in the order of arrival, and each SETTINGS frame of
the client is applied when its acknowledgement arrives, in the order of sending. -/
structure AnswersDue (xs : List Step) (c : Client) : Prop where
  settingsAcks : (xs.flatMap Step.settingsAcksSent).length + c.pendingSettingsAcks =
    (xs.flatMap Step.settingsReceived).length
  pingAcks : xs.flatMap Step.pingAcksSent ++ c.pendingPingAcks = xs.flatMap Step.pingsReceived
  rstStreams : xs.flatMap Step.rstStreamsSent ++ c.pendingRstStreams.map rstOf = (xs.flatMap Step.resets).map rstOf
  acksDue : (xs.flatMap Step.settingsSent).drop (xs.flatMap Step.settingsAcksReceived).length = c.pendingAckSettings
  acks : (xs.flatMap Step.settingsAcksReceived).length ≤ (xs.flatMap Step.settingsSent).length
  applied : c.own = ((xs.flatMap Step.settingsSent).take (xs.flatMap Step.settingsAcksReceived).length).foldl
    OwnSettings.applyFrame ({} : Client).own

/-- Every answer is sent. -/
structure Answered (xs : List Step) : Prop where
  settingsAcks : (xs.flatMap Step.settingsAcksSent).length = (xs.flatMap Step.settingsReceived).length
  pingAcks : xs.flatMap Step.pingAcksSent = xs.flatMap Step.pingsReceived
  rstStreams : xs.flatMap Step.rstStreamsSent = (xs.flatMap Step.resets).map rstOf

theorem SystemRun.settingsAcks_due {xs : List Step} {s : System} (hrun : SystemRun xs s)
    (hcounts : ∀ x ∈ xs, x.CountsSettings) :
    (xs.flatMap Step.settingsAcksSent).length + s.client.pendingSettingsAcks =
      (xs.flatMap Step.settingsReceived).length := by
  induction hrun with
  | start => rfl
  | next h hstep ih =>
      have hbefore := ih fun x hx => hcounts x (List.mem_append_left _ hx)
      have hone := (SystemRun.accounts h hstep).settingsAcks (hcounts _ (by simp))
      simp only [List.flatMap_append, List.flatMap_singleton, List.length_append]
      simp only [Step.control, Step.answerable] at hone
      omega

theorem SystemRun.settings_applied {xs : List Step} {s : System} (hrun : SystemRun xs s) :
    ∃ applied, applied.length = (xs.flatMap Step.settingsAcksReceived).length ∧
      xs.flatMap Step.settingsSent = applied ++ s.client.pendingAckSettings ∧
      s.client.own = applied.foldl OwnSettings.applyFrame ({} : Client).own := by
  induction hrun with
  | start => exact ⟨[], rfl, rfl, rfl⟩
  | next h hstep ih =>
      obtain ⟨before, hlength, hsent, hown⟩ := ih
      obtain ⟨applied, hlength', hsent', hown'⟩ := (SystemRun.accounts h hstep).settings
      refine ⟨before ++ applied, ?_, ?_, ?_⟩
      · rw [List.flatMap_append, List.flatMap_singleton, List.length_append, List.length_append, hlength, hlength']
        rfl
      · rw [List.flatMap_append, List.flatMap_singleton, hsent, List.append_assoc, List.append_assoc, ← hsent']
        rfl
      · rw [List.foldl_append, ← hown, hown']

theorem SystemRun.answersDue {xs : List Step} {s : System} (hrun : SystemRun xs s)
    (hcounts : ∀ x ∈ xs, x.CountsSettings) : AnswersDue xs s.client := by
  obtain ⟨applied, hlength, hsent, hown⟩ := hrun.settings_applied
  have hpings := Run.queue (fun s => s.client.pendingPingAcks) Step.pingAcksSent Step.pingsReceived hrun
    fun _ _ _ _ _ h hstep => (SystemRun.accounts h hstep).pingAcks
  have hresets := Run.queue (fun s => s.client.pendingRstStreams.map rstOf) Step.rstStreamsSent
    (fun x => (Step.resets x).map rstOf) hrun fun _ _ _ _ _ h hstep => SystemRun.accounts_resets h hstep
  refine ⟨hrun.settingsAcks_due hcounts, hpings, ?_, ?_, ?_, ?_⟩
  · rw [List.map_flatMap]
    exact hresets
  · rw [hsent, ← hlength, List.drop_left]
  · rw [hsent, ← hlength, List.length_append]
    exact Nat.le_add_right _ _
  · rw [hsent, ← hlength, List.take_left]
    exact hown

/-- In every run whose steps count the SETTINGS frames right, every answer is sent or queued, none is sent twice, and a
flush without a GOAWAY frame sends all of them. -/
theorem control_frames_answered {xs : List Step} {s : System} (hrun : SystemRun xs s)
    (hcounts : ∀ x ∈ xs, x.CountsSettings) :
    AnswersDue xs s.client ∧ ∀ t out, s.step .flush = some (t, out) → s.client.toSendGoawayEc = none →
      Answered (xs ++ [⟨s, .flush, out, t⟩]) := by
  refine ⟨hrun.answersDue hcounts, fun t out hstep hgoaway => ?_⟩
  have hdue : AnswersDue (xs ++ [⟨s, .flush, out, t⟩]) t.client := by
    refine SystemRun.answersDue (.next hrun hstep) fun x hx => ?_
    rcases List.mem_append.1 hx with hx | hx
    · exact hcounts x hx
    · rw [List.mem_singleton.1 hx]
      exact fun hreceived => absurd rfl hreceived
  have hempty : t.client.pendingSettingsAcks = 0 ∧ t.client.pendingPingAcks = [] ∧ t.client.pendingRstStreams = [] := by
    cases System.step_cases hstep with
    | next u ha => cases ha
    | done c ha => cases ha
    | perform ha hparsing henabled ht hout =>
        have hclient : t.client = s.client.preparePendingSendQueue.1 := by rw [ht]; rfl
        unfold preparePendingSendQueue at hclient
        rw [hgoaway] at hclient
        rw [hclient]
        exact ⟨rfl, rfl, rfl⟩
  obtain ⟨hacks, hpings, hresets⟩ := hempty
  refine ⟨?_, ?_, ?_⟩
  · rw [← hdue.settingsAcks, hacks, Nat.add_zero]
  · rw [← hdue.pingAcks, hpings, List.append_nil]
  · rw [← hdue.rstStreams, hresets, List.map_nil, List.append_nil]

/-- A run with a SETTINGS frame, a PING frame and a stream that is reset. -/
def answeredActions : List Action :=
  [.connect, .read [0, 0, 6, 4, 0, 0, 0, 0, 0, 0, 1, 0, 0, 16, 0], .pass, .pass, .pass, .flush,
    .maxBodySize 0, .request { method := .get, path := ascii "/" }, .sendRequest,
    .read [0, 0, 0, 4, 1, 0, 0, 0, 0, 0, 0, 8, 6, 0, 0, 0, 0, 0, 1, 2, 3, 4, 5, 6, 7, 8], .pass, .pass, .pass, .pass, .pass,
    .read [0, 0, 1, 1, 4, 0, 0, 0, 1, 0x88, 0, 0, 1, 0, 0, 0, 0, 0, 1, 0x41], .pass, .pass, .pass, .pass, .pass]

example : (execute System.step {} answeredActions).isSome = true := by decide +kernel

theorem control_frames_answered_once : ∃ xs s t out, SystemRun xs s ∧ s.step .flush = some (t, out) ∧
    (xs.flatMap Step.settingsReceived).length = 1 ∧ xs.flatMap Step.pingsReceived = [0x0102030405060708] ∧
    xs.flatMap Step.resets = [(1, .frameSizeError)] ∧ (xs.flatMap Step.settingsAcksReceived).length = 1 ∧
    AnswersDue xs s.client ∧ Answered (xs ++ [⟨s, .flush, out, t⟩]) := by
  have hexecute : (execute System.step {} answeredActions).map (fun r => decide
      (((∀ x ∈ r.1, Step.CountsSettings x) ∧ r.2.client.toSendGoawayEc = none ∧ (r.2.step .flush).isSome = true) ∧
      (r.1.flatMap Step.settingsReceived).length = 1 ∧ r.1.flatMap Step.pingsReceived = [0x0102030405060708] ∧
      r.1.flatMap Step.resets = [(1, .frameSizeError)] ∧ (r.1.flatMap Step.settingsAcksReceived).length = 1)) =
      some true := by decide +kernel
  obtain ⟨xs, s, hrun, hseen⟩ := exists_run_of_map_execute hexecute
  obtain ⟨⟨hcounts, hgoaway, hflush⟩, hsettings, hpings, hresets, hacks⟩ := of_decide_eq_true hseen
  obtain ⟨⟨t, out⟩, hstep⟩ := Option.isSome_iff_exists.1 hflush
  exact ⟨xs, s, t, out, hrun, hstep, hsettings, hpings, hresets, hacks, (control_frames_answered hrun hcounts).1,
    (control_frames_answered hrun hcounts).2 t out hstep hgoaway⟩

/-- The server sends 2 ^ 32 SETTINGS frames before the client flushes its queue: none of them is acknowledged. -/
theorem settings_acks_wrap : ∃ xs s t out, SystemRun xs s ∧ s.client.toSendGoawayEc = none ∧
    s.step .flush = some (t, out) ∧ (xs.flatMap Step.settingsReceived).length = 2 ^ 32 ∧
    (xs ++ [(⟨s, .flush, out, t⟩ : Step)]).flatMap Step.settingsAcksSent = [] := by
  obtain ⟨xs, c, hrun, hflooded, hacks, hreceived, hsent⟩ := flooded_run (2 ^ 32 - 1)
  have hzero : c.pendingSettingsAcks = 0 := hacks.trans (by norm_num)
  refine ⟨xs, ⟨c, true, none⟩, ⟨c.preparePendingSendQueue.1, true, none⟩, c.preparePendingSendQueue.2, hrun,
    hflooded.toSendGoawayEc, rfl, hreceived.trans (by norm_num), ?_⟩
  let flush : Step := ⟨⟨c, true, none⟩, .flush, c.preparePendingSendQueue.2, ⟨c.preparePendingSendQueue.1, true, none⟩⟩
  have hcontrol : flush.control = _ := Step.control_flush hflooded.toSendGoawayEc hrun.openStreams_pos rfl
  have hnone := (congrArg Control.settingsAcks hcontrol).trans hzero
  rw [List.flatMap_append, List.flatMap_singleton, hsent, List.nil_append]
  exact List.length_eq_zero_iff.1 hnone

/-! ## The limit on header lists -/

/-- Once all its SETTINGS frames are sent and acknowledged, the client applies the value of the last call of
`max_headers_size` exactly when the call was not dropped, or asked for what was requested before. -/
theorem last_headers_size_applied_iff {xs ys : List Step} {s t u : System} {n : Nat} {out : List SentFrame}
    (hrun : SystemRun xs s) (hcall : s.step (.maxHeadersSize n) = some (t, out)) (hrest : Run System.step t ys u)
    (hlast : ∀ y ∈ ys, ∀ m, y.action ≠ .maxHeadersSize m) (hconnected : u.connected = true)
    (hsent : u.client.pendingSendSettings = none) (hacked : u.client.pendingAckSettings = []) :
    u.client.selfMaxHeaderListSize = n ↔
      s.requested = n ∨ (s.client.stopped = false ∧ s.client.selfMaxHeaderListSize ≠ n) := by
  have happlied : u.requested = u.client.selfMaxHeaderListSize := by
    simp [System.requested, hsent, hacked, hconnected]
  rw [← happlied, SystemRun.requested_run (.next hrun hcall) hrest hlast]
  exact hrun.requested_call hcall

/-- A connection whose preface is acknowledged. -/
def acknowledgedActions : List Action :=
  [.connect, .read [0, 0, 6, 4, 0, 0, 0, 0, 0, 0, 1, 0, 0, 16, 0, 0, 0, 0, 4, 1, 0, 0, 0, 0],
    .pass, .pass, .pass, .pass, .pass, .flush]

/-- A flush of the send queue and its acknowledgement. -/
def acknowledgeActions : List Action := [.flush, .read [0, 0, 0, 4, 1, 0, 0, 0, 0], .pass, .pass, .pass]

theorem last_headers_size_applied : ∃ xs s t out ys u, SystemRun xs s ∧
    s.step (.maxHeadersSize 5000) = some (t, out) ∧ Run System.step t ys u ∧
    (∀ y ∈ ys, ∀ m, Transition.action y ≠ .maxHeadersSize m) ∧ u.client.pendingSendSettings = none ∧
    u.client.pendingAckSettings = [] ∧ u.client.selfMaxHeaderListSize = 5000 := by
  have hexecute : ((execute System.step {} acknowledgedActions).bind fun r =>
      (r.2.step (.maxHeadersSize 5000)).bind fun q => (execute System.step q.1 acknowledgeActions).map fun r' => decide
        (r.2.client.stopped = false ∧ r.2.client.selfMaxHeaderListSize ≠ 5000 ∧
          r'.1.map Transition.action = acknowledgeActions ∧
          r'.2.connected = true ∧ r'.2.client.pendingSendSettings = none ∧ r'.2.client.pendingAckSettings = [])) =
      some true := by decide +kernel
  obtain ⟨xs, s, t, out, ys, u, hrun, hcall, hrest, hseen⟩ := exists_runs_of_execute hexecute
  obtain ⟨hstopped, hne, hactions, hconnected, hsent, hacked⟩ := of_decide_eq_true hseen
  have hlast : ∀ y ∈ ys, ∀ m, Transition.action y ≠ .maxHeadersSize m := by
    intro y hy m heq
    have hmem : Transition.action y ∈ acknowledgeActions := hactions ▸ List.mem_map_of_mem hy
    rw [heq] at hmem
    simp [acknowledgeActions] at hmem
  exact ⟨xs, s, t, out, ys, u, hrun, hcall, hrest, hlast, hsent, hacked,
    (last_headers_size_applied_iff hrun hcall hrest hlast hconnected hsent hacked).2 (.inr ⟨hstopped, hne⟩)⟩

/-- While the frame with 5000 is to be sent, the call with the applied value is dropped. -/
theorem last_headers_size_dropped : ∃ xs s t out ys u, SystemRun xs s ∧
    s.step (.maxHeadersSize 16384) = some (t, out) ∧ Run System.step t ys u ∧
    (∀ y ∈ ys, ∀ m, Transition.action y ≠ .maxHeadersSize m) ∧ u.connected = true ∧
    u.client.pendingSendSettings = none ∧ u.client.pendingAckSettings = [] ∧ u.client.selfMaxHeaderListSize = 5000 := by
  have hexecute : ((execute System.step {} (acknowledgedActions ++ [.maxHeadersSize 5000])).bind fun r =>
      (r.2.step (.maxHeadersSize 16384)).bind fun q => (execute System.step q.1 acknowledgeActions).map fun r' => decide
        (r'.1.map Transition.action = acknowledgeActions ∧
          r'.2.connected = true ∧ r'.2.client.pendingSendSettings = none ∧ r'.2.client.pendingAckSettings = [] ∧
          r'.2.client.selfMaxHeaderListSize = 5000)) =
      some true := by decide +kernel
  obtain ⟨xs, s, t, out, ys, u, hrun, hcall, hrest, hseen⟩ := exists_runs_of_execute hexecute
  obtain ⟨hactions, hconnected, hsent, hacked, hsize⟩ := of_decide_eq_true hseen
  refine ⟨xs, s, t, out, ys, u, hrun, hcall, hrest, fun y hy m heq => ?_, hconnected, hsent, hacked, hsize⟩
  have hmem : Transition.action y ∈ acknowledgeActions := hactions ▸ List.mem_map_of_mem hy
  rw [heq] at hmem
  simp [acknowledgeActions] at hmem

end Rad.Http2
