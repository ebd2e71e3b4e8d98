import Rad.Http2.Client.Lemmas.Seen

/-!
# The connection window

The window that the client keeps, and what a step does to it: a DATA frame header that passes all checks takes its length
off, and a flush fills the window up again.
-/

namespace Rad.Http2

open Lib Client

variable {s t : System} {a : Action} {out : List SentFrame} {xs : List Step}

theorem wrapInt32_eq {n : Int} (hlow : -2 ^ 31 ≤ n) (hhigh : n < 2 ^ 31) : wrapInt32 n = n := by
  unfold wrapInt32
  exact Int.bmod_eq_of_le (by omega) (by omega)

/-- A DATA frame header is for a stream that still awaits data and stays within the limits on it, and takes the window
to what an `int32_t` has room for; a flush finds a window that it can fill up with one increment. -/
structure Step.KeepsWindow (x : Step) : Prop where
  data : ∀ header ∈ x.headerReceived, header.type = .data →
    (∀ it ∈ x.before.client.findStream header.streamId,
      it.isHalfClosedRemote = false ∧ x.before.client.dataFits it header = true) ∧
    -2 ^ 31 ≤ x.before.client.windowSize - header.length
  flush : x.action = .flush → -2 ^ 30 ≤ x.before.client.windowSize

instance (x : Step) : Decidable x.KeepsWindow :=
  decidable_of_iff
    ((∀ header ∈ x.headerReceived, header.type = .data →
      (∀ it ∈ x.before.client.findStream header.streamId,
        it.isHalfClosedRemote = false ∧ x.before.client.dataFits it header = true) ∧
      -2 ^ 31 ≤ x.before.client.windowSize - header.length) ∧
      (x.action = .flush → -2 ^ 30 ≤ x.before.client.windowSize))
    ⟨fun h => ⟨h.1, h.2⟩, fun h => ⟨h.data, h.flush⟩⟩

/-- The increments of the window as the server reads them, without the reserved bit. -/
def Step.windowAdded (x : Step) : Nat := (x.windowIncrementsSent.map (· % 2 ^ 31)).sum

/-- The lengths of the DATA frames. -/
def Step.windowTaken (x : Step) : Nat := x.dataReceived.sum

theorem Client.HeaderStep.windowSize {c c' : Client} {header : FrameHeader} (h : HeaderStep c header c')
    (hdata : header.type = .data → ∀ it ∈ c.findStream header.streamId,
      it.isHalfClosedRemote = false ∧ c.dataFits it header = true) :
    c'.windowSize = if header.type = .data then wrapInt32 (c.windowSize - header.length) else c.windowSize := by
  have hclose : ∀ (d : Client) id ec rst, (d.closeOpenStream id ec rst).windowSize = d.windowSize := by
    intro d id ec rst
    obtain ⟨_, _, _, _, heq⟩ := closeOpenStream_streamsOnly d id ec rst
    rw [heq]
  cases h with
  | passes htype => rw [if_neg htype.1]
  | late it hfind hremote htype =>
      rw [hclose]
      split
      · rename_i htype
        have hopen := (hdata htype it hfind).1
        rw [hremote] at hopen
        cases hopen
      · rfl
  | headers it hfind hremote htype hphase => simp [htype, noteHeader, modifyStream]
  | data it hfind hremote htype hphase hfits => simp [htype]
  | overlong it hfind hremote htype hphase hfits =>
      have hfits' := (hdata htype it hfind).2
      rw [hfits] at hfits'
      cases hfits'
  | other it hfind hremote hheaders hdata' hphase => simp [hdata', noteHeader, modifyStream]

theorem Client.processFramePayload_windowSize (c : Client) (header : FrameHeader) (payload : PayloadStage) :
    (c.processFramePayload header payload).1.windowSize = c.windowSize := by
  by_cases hsettings : header.type = .settings
  · simp only [processFramePayload, hsettings]
    exact (processSettingsFramePayload_step c header payload).settingsKeeps.windowSize
  · by_cases hping : header.type = .ping
    · simp only [processFramePayload, hping, processPingFramePayload]
      split
      · rfl
      · split
        · rfl
        · split <;> rfl
    · obtain ⟨_, _, _, _, _, _, _, _, _, _, _, heq⟩ := processFramePayload_parserOnly c payload hsettings hping
      rw [heq]

theorem Action.perform_windowSize (c : Client) {a : Action} (hflush : a = .flush → c.toSendGoawayEc.isSome) :
    (a.perform c).1.windowSize = c.windowSize := by
  by_cases hquiet : a.isQuiet = true
  · exact congrArg Queues.windowSize (Action.perform_queues c hquiet)
  · cases a with
    | connect => rfl
    | ping => rfl
    | flush =>
        obtain ⟨ec, hec⟩ := Option.isSome_iff_exists.1 (hflush rfl)
        simp only [Action.perform, preparePendingSendQueue, hec]
    | finishBodies =>
        obtain ⟨_, _, _, _, heq⟩ := finishBodies_streamsOnly c
        rw [Action.perform, heq]
    | maxHeadersSize n =>
        obtain ⟨sframe, heq⟩ := maxHeadersSize_eq c n
        rw [Action.perform, heq]
    | _ => exact absurd rfl hquiet

/-- The window of the client lies between these bounds. -/
def WindowFits (c : Client) : Prop := -2 ^ 31 ≤ c.windowSize ∧ c.windowSize ≤ defaultClientWindowSize

/-- The window before and behind a step. -/
def WindowAccounts (x : Step) : Prop :=
  x.after.client.windowSize + x.windowTaken + (if x.action = .connect then defaultClientWindowSize else 0) =
    x.before.client.windowSize + x.windowAdded

theorem Step.windowTaken_of_none {x : Step} (h : x.headerReceived = none) : x.windowTaken = 0 := by
  simp [Step.windowTaken, Step.dataReceived, h]

theorem Step.windowAdded_of_control {x : Step} {control : Control} (h : x.control = control) :
    x.windowAdded = (control.windowIncrements.map (· % 2 ^ 31)).sum := by
  rw [← h]
  rfl

/-- The increment that fills the window up. -/
theorem windowIncrement_eq {n : Int} (hlow : -2 ^ 30 ≤ n) (hhigh : n ≤ defaultClientWindowSize) :
    ((windowIncrement n % 2 ^ 31 : Nat) : Int) = defaultClientWindowSize - n := by
  unfold windowIncrement
  unfold defaultClientWindowSize at *
  omega

theorem SystemRun.window_step (hrun : SystemRun xs s) (hstep : s.step a = some (t, out))
    (hkeeps : Step.KeepsWindow ⟨s, a, out, t⟩) (hfits : WindowFits s.client) :
    WindowFits t.client ∧ WindowAccounts ⟨s, a, out, t⟩ := by
  have hsame : t.client.windowSize = s.client.windowSize → Step.headerReceived ⟨s, a, out, t⟩ = none →
      Step.control ⟨s, a, out, t⟩ = {} → a ≠ .connect → WindowFits t.client ∧ WindowAccounts ⟨s, a, out, t⟩ := by
    intro hsize hheader hcontrol hconnect
    refine ⟨by rwa [WindowFits, hsize], ?_⟩
    simp [WindowAccounts, hsize, Step.windowTaken_of_none hheader, Step.windowAdded_of_control hcontrol, hconnect]
  cases (SystemRun.invariant hrun).seen hstep with
  | header c header hlen heq hheader ha ht hstage hout hreceived hframe =>
      subst ha hout
      have hdata := hkeeps.data header hreceived
      have hsize : t.client.windowSize =
          if header.type = .data then wrapInt32 (s.client.windowSize - header.length) else s.client.windowSize := by
        rw [ht]
        exact hheader.windowSize fun htype => (hdata htype).1
      have htaken : Step.windowTaken ⟨s, .pass, [], t⟩ = if header.type = .data then header.length else 0 := by
        simp only [Step.windowTaken, Step.dataReceived, hreceived, Option.toList_some]
        by_cases htype : header.type = .data <;> simp [htype]
      have hadded : Step.windowAdded ⟨s, .pass, [], t⟩ = 0 := rfl
      simp only [WindowFits, WindowAccounts, hsize, htaken, hadded]
      split
      · rename_i htype
        have hhigh := hfits.2
        have hwrap : wrapInt32 (s.client.windowSize - header.length) = s.client.windowSize - header.length :=
          wrapInt32_eq (hdata htype).2 (by unfold defaultClientWindowSize at hhigh; omega)
        rw [hwrap]
        refine ⟨⟨(hdata htype).2, by omega⟩, ?_⟩
        simp
      · refine ⟨hfits, ?_⟩
        simp
  | payload header payload hlast hstage hacc hec ha ht hout hreceived hframe =>
      subst ha hout
      refine hsame ?_ hreceived rfl (by simp)
      rw [ht]
      exact processFramePayload_windowSize _ _ _
  | done rbufExhausted ha ht hout hreceived hframe =>
      subst ha hout
      exact hsame (by rw [ht]) hreceived rfl (by simp)
  | perform ha hparsing henabled ht hout hreceived hframe =>
      have hclient : t.client = (a.perform s.client).1 := by rw [ht]
      cases hrun.sent hstep with
      | none hconnect hflush heq =>
          exact hsame (by rw [hclient]; exact Action.perform_windowSize _ hflush) hreceived heq hconnect
      | connect ha heq =>
          subst ha
          have hsize : t.client.windowSize = s.client.windowSize := by rw [hclient]; rfl
          refine ⟨by rwa [WindowFits, hsize], ?_⟩
          simp [WindowAccounts, hsize, Step.windowTaken_of_none hreceived, Step.windowAdded_of_control heq,
            defaultClientWindowSize]
      | flush ha hgoaway heq =>
          subst ha
          have hsize : t.client.windowSize =
              if s.client.windowSize ≤ minAllowedWindowSize then defaultClientWindowSize else s.client.windowSize := by
            rw [hclient]
            simp only [Action.perform, preparePendingSendQueue, hgoaway]
          have hincrement := windowIncrement_eq (hkeeps.flush rfl) hfits.2
          simp only [WindowFits, WindowAccounts, Step.windowTaken_of_none hreceived, Step.windowAdded_of_control heq,
            hsize]
          split
          · rw [List.map_singleton, List.sum_singleton, hincrement]
            refine ⟨⟨by decide, le_refl _⟩, ?_⟩
            simp
          · refine ⟨hfits, ?_⟩
            simp

/-! ## A server that sends SETTINGS frames without end

While the writer waits for the transport, nothing is flushed and the reader goes on. Each SETTINGS frame adds to the
count of the acknowledgements to be sent, in 32 bits.
-/

/-- A SETTINGS frame with one value, which the client does not know. -/
def unknownSetting : Bytes := [0, 0, 6, 4, 0, 0, 0, 0, 0, 0, 8, 0, 0, 0, 1]

/-- The header of that frame behind another one. -/
theorem Client.parseHeader_unknownSetting {c : Client} (hrbuf : c.rbuf = unknownSetting)
    (hlast : c.lastHeader = some { type := .settings, length := 6 }) (hsize : c.selfMaxPayloadSize = 2 ^ 14) :
    c.parseHeader = .next { client := { c with
      rbuf := unknownSetting.drop 9, parserStage := .payload { totalSize := 6, minReadSize := 6 } } } := by
  have hheader : FrameHeader.ofBuffer (c.rbuf.take FrameHeader.neededWriteSize) = { type := .settings, length := 6 } := by
    rw [hrbuf]
    decide
  have hvalid : FrameHeader.isValidFrame { type := .settings, length := 6 } c.lastHeader c.selfMaxPayloadSize false false
      c.lastClientId c.lastServerId = true := by
    rw [hsize, hlast]
    rfl
  have hvalidate : { c with rbuf := c.rbuf.drop FrameHeader.neededWriteSize }.validateFrameHeader
      { type := .settings, length := 6 } = ({ c with rbuf := unknownSetting.drop 9 }, none) := by
    simp [validateFrameHeader, hvalid, hrbuf, FrameHeader.neededWriteSize]
  unfold parseHeader
  rw [if_neg (by rw [hrbuf]; decide)]
  dsimp only
  rw [hheader, hvalidate]
  simp only [acceptHeader, hlast]
  rfl

theorem Client.processSettings_unknownSetting {c : Client} (hrbuf : c.rbuf = unknownSetting.drop 9) :
    c.processSettingsFramePayload { type := .settings, length := 6 } { totalSize := 6, minReadSize := 6 } =
      ({ c with
          rbuf := [], parserStage := .header, receivedConnectionSettings := true
          pendingSettingsAcks := (c.pendingSettingsAcks + 1) % 2 ^ 32 }, none) := by
  have hread : c.readSettings { totalSize := 6, minReadSize := 6 } =
      ({ c with rbuf := [] }, { totalSize := 6, minReadSize := 6, consumedSize := 6 }, .complete) := by
    rw [readSettings, if_pos (by decide), if_neg (by rw [hrbuf]; decide)]
    have hset : { c with rbuf := c.rbuf.drop SettingValue.neededWriteSize }.onReceivedSetting 
        (SettingValue.ofBuffer (c.rbuf.take SettingValue.neededWriteSize)) = ({ c with rbuf := [] }, none) := by
      rw [hrbuf]
      have hvalue : SettingValue.ofBuffer ((unknownSetting.drop 9).take SettingValue.neededWriteSize) = ⟨8, 1⟩ := by decide
      rw [hvalue]
      rfl
    dsimp only
    rw [hset]
    dsimp only
    rw [readSettings, if_neg (by decide)]
    rfl
  unfold processSettingsFramePayload
  rw [hread]
  rfl

/-- A client between two calls of `parse_frames` that has read such a frame. -/
structure Flooded (c : Client) : Prop where
  stopped : c.stopped = false
  rbuf : c.rbuf = []
  parserStage : c.parserStage = .header
  lastHeader : c.lastHeader = some { type := .settings, length := 6 }
  selfMaxPayloadSize : c.selfMaxPayloadSize = 2 ^ 14
  toSendGoawayEc : c.toSendGoawayEc = none

/-- The client in the payload of such a frame, and behind it. -/
def Client.inSetting (c : Client) : Client :=
  { c with
    rbuf := unknownSetting.drop 9, rbufExhausted := false
    parserStage := .payload { totalSize := 6, minReadSize := 6 } }

def Client.afterSetting (c : Client) : Client :=
  { c with
    rbuf := [], rbufExhausted := false, receivedConnectionSettings := true
    pendingSettingsAcks := (c.pendingSettingsAcks + 1) % 2 ^ 32 }

theorem Flooded.next {c : Client} (h : Flooded c) :
    ∃ ys, Run System.step ⟨c, true, none⟩ ys ⟨c.afterSetting, true, none⟩ ∧ Flooded c.afterSetting ∧
      (ys.flatMap Step.settingsReceived).length = 1 ∧ ys.flatMap Step.settingsAcksSent = [] := by
  have hread : System.step ⟨c, true, none⟩ (.read unknownSetting) =
      some (⟨c.receive unknownSetting, true, none⟩, []) := by
    simp [System.step, Action.enabled, h.stopped, needReading, h.rbuf, space, unknownSetting, readBuffSize,
      Action.perform]
  have hheader : parsePass { client := c.receive unknownSetting } = .next { client := c.inSetting } := by
    rw [parsePass_of_runs ⟨h.stopped, .inl (by simp [receive, unknownSetting])⟩]
    simp only [receive, h.parserStage]
    exact parseHeader_unknownSetting (by simp [h.rbuf]) h.lastHeader h.selfMaxPayloadSize
  have hpayload : parsePass { client := c.inSetting } = .next { client := c.afterSetting } := by
    have hlast : c.inSetting.lastHeader.getD {} = { type := .settings, length := 6 } := by
      simp [inSetting, h.lastHeader]
    have hstage : c.inSetting.parserStage = .payload { totalSize := 6, minReadSize := 6 } := rfl
    have hmin : ¬c.inSetting.rbuf.length < 6 := by simp [inSetting, unknownSetting]
    have hprocess := processSettings_unknownSetting (c := c.inSetting) rfl
    have hafter : c.afterSetting = { c.afterSetting with parserStage := .header } := by
      simp [afterSetting, h.parserStage]
    rw [parsePass_of_runs ⟨h.stopped, .inl (by simp [inSetting, unknownSetting])⟩, hafter]
    simp only [hlast, hstage, parsePayload, hmin, if_false, processFramePayload, hprocess]
    rfl
  have hdone : parsePass { client := c.afterSetting } = .done (c.afterSetting, none) :=
    parsePass_of_not_runs fun hruns => by simpa [afterSetting] using hruns.input
  have hpass : System.step ⟨c.receive unknownSetting, true, none⟩ .pass = some (⟨c.inSetting, true, some false⟩, []) :=
    @System.step_of_next ⟨c.receive unknownSetting, true, none⟩ _ rfl hheader
  have hpass' : System.step ⟨c.inSetting, true, some false⟩ .pass = some (⟨c.afterSetting, true, some false⟩, []) :=
    @System.step_of_next ⟨c.inSetting, true, some false⟩ _ rfl hpayload
  have hpass'' : System.step ⟨c.afterSetting, true, some false⟩ .pass = some (⟨c.afterSetting, true, none⟩, []) :=
    @System.step_of_done ⟨c.afterSetting, true, some false⟩ _ rfl hdone
  refine ⟨_, (((Run.single hread).next hpass).next hpass').next hpass'', ⟨h.stopped, rfl, h.parserStage, h.lastHeader,
    h.selfMaxPayloadSize, h.toSendGoawayEc⟩, ?_, rfl⟩
  simp [Step.settingsReceived, Step.frameReceived, inSetting, afterSetting, receive, h.parserStage, h.lastHeader]
  rfl

/-- A run in which more and more such frames are read and nothing is flushed. -/
theorem flooded_run (n : Nat) : ∃ xs c, SystemRun xs ⟨c, true, none⟩ ∧ Flooded c ∧
    c.pendingSettingsAcks = (n + 1) % 2 ^ 32 ∧ (xs.flatMap Step.settingsReceived).length = n + 1 ∧
    xs.flatMap Step.settingsAcksSent = [] := by
  induction n with
  | zero =>
      have hexecute : (execute System.step {} [.connect, .read unknownSetting, .pass, .pass, .pass]).map (fun r => decide
          ((r.2.connected = true ∧ r.2.parsing = none) ∧
          (r.2.client.stopped = false ∧ r.2.client.rbuf = [] ∧ r.2.client.parserStage = .header ∧
            r.2.client.lastHeader = some { type := .settings, length := 6 } ∧ r.2.client.selfMaxPayloadSize = 2 ^ 14 ∧
            r.2.client.toSendGoawayEc = none) ∧
          r.2.client.pendingSettingsAcks = 1 ∧ (r.1.flatMap Step.settingsReceived).length = 1 ∧
          r.1.flatMap Step.settingsAcksSent = [])) = some true := by decide +kernel
      obtain ⟨xs, ⟨c, connected, parsing⟩, hrun, hseen⟩ := exists_run_of_map_execute hexecute
      obtain ⟨⟨rfl, rfl⟩, ⟨hstopped, hrbuf, hstage, hlast, hsize, hgoaway⟩, hseen⟩ := of_decide_eq_true hseen
      exact ⟨xs, c, hrun, ⟨hstopped, hrbuf, hstage, hlast, hsize, hgoaway⟩, hseen⟩
  | succ n ih =>
      obtain ⟨xs, c, hrun, hflooded, hacks, hreceived, hsent⟩ := ih
      obtain ⟨ys, hnext, hflooded', hreceived', hsent'⟩ := hflooded.next
      refine ⟨xs ++ ys, c.afterSetting, hrun.append hnext, hflooded', ?_, ?_, ?_⟩
      · rw [afterSetting, hacks, Nat.mod_add_mod]
      · rw [List.flatMap_append, List.length_append, hreceived, hreceived']
      · rw [List.flatMap_append, hsent, hsent', List.append_nil]

end Rad.Http2
