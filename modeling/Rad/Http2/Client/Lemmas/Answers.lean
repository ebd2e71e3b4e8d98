import Rad.Http2.Client.Lemmas.Seen

/-!
# Answers to control frames

Each queue of the client is accounted for step by step: what a step sends and leaves in the queue is what was there and
what the step received. The SETTINGS frames of the client are a queue of their own, which the server drains with its
acknowledgements.
-/

namespace Rad.Http2

open Lib Client

variable {s t : System} {a : Action} {out : List SentFrame} {xs : List Step}

/-! ## The client's own settings -/

/-- What the settings of the client say. -/
structure OwnSettings where
  initialWindowSize : Nat
  maxPayloadSize : Nat
  maxHeaderListSize : Nat
  deriving DecidableEq

def OwnSettings.apply (own : OwnSettings) (svalue : SettingValue) : OwnSettings :=
  match svalue.id with
  | 4 => { own with initialWindowSize := svalue.value }
  | 5 => { own with maxPayloadSize := svalue.value }
  | 6 => { own with maxHeaderListSize := svalue.value }
  | _ => own

def OwnSettings.applyFrame (own : OwnSettings) (sframe : SettingsFrame) : OwnSettings := sframe.foldl apply own

namespace Client

def own (c : Client) : OwnSettings :=
  ⟨c.selfStreamsInitialWindowSize, c.selfMaxPayloadSize, c.selfMaxHeaderListSize⟩

theorem applyLocalSetting_own (c : Client) (svalue : SettingValue) :
    (c.applyLocalSetting svalue).own = c.own.apply svalue := by
  rcases svalue with ⟨id, value⟩
  match id with
  | 0 | 1 | 2 | 3 | 4 | 5 | 6 => rfl
  | id + 7 => rfl

theorem applyLocalSettings_own (c : Client) (sframe : SettingsFrame) :
    (c.applyLocalSettings sframe).own = c.own.applyFrame sframe := by
  unfold applyLocalSettings OwnSettings.applyFrame
  induction sframe generalizing c with
  | nil => rfl
  | cons svalue sframe ih => rw [List.foldl_cons, List.foldl_cons, ih, applyLocalSetting_own]

end Client

/-! ## One step -/

/-- What a step receives that is to be answered, or is an answer itself. -/
structure Answerable where
  settings : List FrameHeader := []
  settingsAcks : List FrameHeader := []
  pings : List Nat := []

def Step.answerable (x : Step) : Answerable where
  settings := x.settingsReceived
  settingsAcks := x.settingsAcksReceived
  pings := x.pingsReceived

theorem Step.answerable_of_none {x : Step} (h : ∀ header, x.frameReceived = some header →
    header.type ≠ .settings ∧ header.type ≠ .ping) : x.answerable = {} := by
  cases hframe : x.frameReceived with
  | none => simp [Step.answerable, settingsReceived, settingsAcksReceived, pingsReceived, hframe]
  | some header =>
      obtain ⟨hsettings, hping⟩ := h header hframe
      simp [Step.answerable, settingsReceived, settingsAcksReceived, pingsReceived, hframe, hsettings, hping]

/-- The queues of the client that have to do with answers. -/
structure Pending where
  settingsAcks : Nat
  pingAcks : List Nat
  settings : List SettingsFrame
  own : OwnSettings

def Client.pending (c : Client) : Pending := ⟨c.pendingSettingsAcks, c.pendingPingAcks, c.pendingAckSettings, c.own⟩

/-- What a step does to the queues, without a flush and without the preface. -/
inductive Answers (c : Client) (r : Answerable) (c' : Client) : Prop where
  | none (hr : r = {}) (h : c'.pending = c.pending)
  | settings (header : FrameHeader) (hr : r = { settings := [header] })
      (h : c'.pending = { c.pending with settingsAcks := (c.pendingSettingsAcks + 1) % 2 ^ 32 })
  | settingsAck (header : FrameHeader) (oldest : SettingsFrame) (rest : List SettingsFrame)
      (hr : r = { settingsAcks := [header] }) (hpending : c.pendingAckSettings = oldest :: rest)
      (h : c'.pending = { c.pending with settings := rest, own := c.own.applyFrame oldest })
  | ping (opaqueData : Nat) (hr : r = { pings := [opaqueData] })
      (h : c'.pending = { c.pending with pingAcks := c.pendingPingAcks ++ [opaqueData] })

theorem Client.SettingsStep.answerable {c : Client} {header : FrameHeader} {r : Client × Option Error} {x : Step}
    (h : SettingsStep c header r) (hec : failed r.2 = false) (htype : header.type = .settings)
    (hframe : x.frameReceived = if r.1.parserStage = .header then some header else none) :
    Answers c x.answerable r.1 := by
  cases h with
  | reads d payload ec hpeer =>
      obtain ⟨_, _, _, _, _, _, rfl⟩ := hpeer
      refine .none (Step.answerable_of_none fun header' hheader => ?_) rfl
      rw [hframe] at hheader
      cases hheader
  | answers d hpeer hack =>
      obtain ⟨_, _, _, _, _, _, rfl⟩ := hpeer
      refine .settings header ?_ rfl
      simp [Step.answerable, Step.settingsReceived, Step.settingsAcksReceived, Step.pingsReceived, hframe, htype, hack]
  | unexpected d hpeer hack hnone => cases hec
  | applies d oldest rest hpeer hack hpending =>
      obtain ⟨_, _, _, _, _, _, rfl⟩ := hpeer
      have hown := fun d : Client => applyLocalSettings_own d oldest
      have hself := fun d : Client => applyLocalSettings_selfOnly d oldest
      refine .settingsAck header oldest rest ?_ hpending ?_
      · obtain ⟨_, _, _, _, heq⟩ := hself _
        rw [heq] at hframe
        simp [Step.answerable, Step.settingsReceived, Step.settingsAcksReceived, Step.pingsReceived, hframe, htype, hack]
      · have hpend : ∀ d : Client, (d.applyLocalSettings oldest).pending =
            { d.pending with own := d.own.applyFrame oldest } := by
          intro d
          obtain ⟨_, _, _, _, heq⟩ := hself d
          rw [← hown, Client.pending, heq]
          rfl
        exact hpend _

theorem Client.processPingFramePayload_answers {c : Client} {header : FrameHeader} {payload : PayloadStage} {x : Step}
    (hbefore : x.before.client = c) (hstage : c.parserStage = .payload payload) (htype : header.type = .ping)
    (hframe : x.frameReceived = if (c.processPingFramePayload header payload).parserStage = .header then some header
      else none) : Answers c x.answerable (c.processPingFramePayload header payload) := by
  unfold processPingFramePayload at hframe ⊢
  dsimp only at hframe ⊢
  split at hframe
  · rename_i hshort
    rw [if_pos hshort]
    refine .none (Step.answerable_of_none fun header' hheader => ?_) rfl
    rw [hframe, if_neg (by simp [hstage])] at hheader
    cases hheader
  · rename_i hlong
    rw [if_neg hlong]
    cases hack : hasFlag header.flags pingAckFlag with
    | false =>
        simp only [hack, Bool.not_false, if_true] at hframe ⊢
        refine .ping (ofBigEndian (c.rbuf.take 8)) ?_ ?_
        · simp [Step.answerable, Step.settingsReceived, Step.settingsAcksReceived, Step.pingsReceived, hframe, htype,
            hack, hbefore]
        · simp [Client.pending, Client.pendingPingAcks, Client.own]
    | true =>
        have hnone : x.answerable = {} := by
          simp only [hack, Bool.not_true, Bool.false_eq_true, if_false] at hframe
          have hreceived : x.frameReceived = some header := by
            rw [hframe]
            split <;> rfl
          simp [Step.answerable, Step.settingsReceived, Step.settingsAcksReceived, Step.pingsReceived, hreceived, htype,
            hack]
        simp only [Bool.not_true, Bool.false_eq_true, if_false]
        split
        · exact .none hnone rfl
        · exact .none hnone rfl

/-- What a pass of `parse_frames` does to the queues. -/
theorem SystemInvariant.answers (h : SystemInvariant s) (hstep : s.step .pass = some (t, out)) :
    Answers s.client (Step.answerable ⟨s, .pass, out, t⟩) t.client := by
  cases h.seen hstep with
  | header c header hlen heq hheader ha ht hstage hout hreceived hframe =>
      refine .none (Step.answerable_of_none fun header' hheader' => ?_) ?_
      · rw [hframe] at hheader'
        cases hheader'
      · obtain ⟨windowSize, hparser⟩ := hheader.parserOnly
        obtain ⟨_, _, _, _, _, _, _, _, _, _, _, rfl⟩ := hparser
        rw [ht]
        rfl
  | payload header payload hlast hstage hacc hec ha ht hout hreceived hframe =>
      have hclient : t.client = (s.client.processFramePayload header payload).1 := by rw [ht]
      rw [hclient] at hframe ⊢
      by_cases hsettings : header.type = .settings
      · simp only [processFramePayload, hsettings] at hec hframe ⊢
        exact (processSettingsFramePayload_step s.client header payload).answerable hec hsettings hframe
      · by_cases hping : header.type = .ping
        · simp only [processFramePayload, hping] at hframe ⊢
          exact processPingFramePayload_answers rfl hstage hping hframe
        · refine .none (Step.answerable_of_none fun header' hheader => ?_) ?_
          · rw [hframe] at hheader
            split at hheader
            · cases hheader
              exact ⟨hsettings, hping⟩
            · cases hheader
          · obtain ⟨_, _, _, _, _, _, _, _, _, _, _, heq⟩ := processFramePayload_parserOnly s.client payload hsettings hping
            rw [heq]
            rfl
  | done rbufExhausted ha ht hout hreceived hframe =>
      refine .none (Step.answerable_of_none fun header' hheader => ?_) ?_
      · rw [hframe] at hheader
        cases hheader
      · rw [ht]
        rfl
  | perform ha => exact absurd rfl ha

/-! ## Accounting -/

/-- The queues before and behind a step. -/
structure Accounts (c : Client) (r : Answerable) (control : Control) (c' : Client) : Prop where
  settingsAcks : (r.settings ≠ [] → c.pendingSettingsAcks + 1 < 2 ^ 32) →
    control.settingsAcks + c'.pendingSettingsAcks = c.pendingSettingsAcks + r.settings.length
  pingAcks : control.pingAcks ++ c'.pendingPingAcks = c.pendingPingAcks ++ r.pings
  settings : ∃ applied : List SettingsFrame, applied.length = r.settingsAcks.length ∧
    c.pendingAckSettings ++ control.settings = applied ++ c'.pendingAckSettings ∧
    c'.own = applied.foldl OwnSettings.applyFrame c.own

theorem Accounts.of_pending {c c' : Client} (h : c'.pending = c.pending) : Accounts c {} {} c' := by
  simp only [Client.pending, Pending.mk.injEq] at h
  obtain ⟨hacks, hpings, hsettings, hown⟩ := h
  exact ⟨fun _ => by simp [hacks], by simp [hpings], [], rfl, by simp [hsettings], hown⟩

theorem Answers.accounts {c c' : Client} {r : Answerable} (h : Answers c r c') : Accounts c r {} c' := by
  cases h with
  | none hr h =>
      rw [hr]
      exact .of_pending h
  | settings header hr h =>
      simp only [Client.pending, Pending.mk.injEq] at h
      obtain ⟨hacks, hpings, hsettings, hown⟩ := h
      rw [hr]
      refine ⟨fun hlt => ?_, by simp [hpings], [], rfl, by simp [hsettings], hown⟩
      rw [hacks, Nat.mod_eq_of_lt (hlt (by simp)), Nat.zero_add]
      rfl
  | settingsAck header oldest rest hr hpending h =>
      simp only [Client.pending, Pending.mk.injEq] at h
      obtain ⟨hacks, hpings, hsettings, hown⟩ := h
      rw [hr]
      exact ⟨fun _ => by simp [hacks], by simp [hpings], [oldest], rfl, by simp [hsettings, hpending], hown⟩
  | ping opaqueData hr h =>
      simp only [Client.pending, Pending.mk.injEq] at h
      obtain ⟨hacks, hpings, hsettings, hown⟩ := h
      rw [hr]
      exact ⟨fun _ => by simp [hacks], by simp [hpings], [], rfl, by simp [hsettings], hown⟩

theorem Client.pending_of_queues {c c' : Client} (h : c'.queues = c.queues) : c'.pending = c.pending := by
  simp only [Client.queues, Queues.mk.injEq] at h
  obtain ⟨-, -, hpings, hacks, hsettings, -, -, hwindow, hpayload, hheaders⟩ := h
  simp only [Client.pending, Client.pendingPingAcks, Client.own, hpings, hacks, hsettings, hwindow, hpayload, hheaders]

/-- Between two calls of `parse_frames` the queues are touched by the preface and by a flush alone. -/
theorem Action.perform_pending (c : Client) {a : Action} (hconnect : a ≠ .connect)
    (hflush : a = .flush → c.toSendGoawayEc.isSome) : (a.perform c).1.pending = c.pending := by
  by_cases hquiet : a.isQuiet = true
  · exact Client.pending_of_queues (Action.perform_queues c hquiet)
  · cases a with
    | connect => exact absurd rfl hconnect
    | flush =>
        obtain ⟨ec, hec⟩ := Option.isSome_iff_exists.1 (hflush rfl)
        simp only [Action.perform, preparePendingSendQueue, hec]
    | finishBodies =>
        obtain ⟨_, _, _, _, heq⟩ := finishBodies_streamsOnly c
        rw [Action.perform, heq]
        rfl
    | ping => simp [Action.perform, sendPing, Client.pending, Client.pendingPingAcks, Client.own]
    | maxHeadersSize n =>
        obtain ⟨sframe, heq⟩ := maxHeadersSize_eq c n
        rw [Action.perform, heq]
        rfl
    | _ => exact absurd rfl hquiet

theorem SystemRun.accounts (hrun : SystemRun xs s) (hstep : s.step a = some (t, out)) :
    Accounts s.client (Step.answerable ⟨s, a, out, t⟩) (Step.control ⟨s, a, out, t⟩) t.client := by
  have hinv := SystemRun.invariant hrun
  by_cases ha : a = .pass
  · subst ha
    cases hrun.sent hstep with
    | none hconnect hflush heq =>
        rw [heq]
        exact (hinv.answers hstep).accounts
    | connect ha => cases ha
    | flush ha => cases ha
  · cases hinv.seen hstep with
    | header c header hlen heq hheader ha' => exact absurd ha' ha
    | payload header payload hlast hstage hacc hec ha' => exact absurd ha' ha
    | done rbufExhausted ha' => exact absurd ha' ha
    | perform _ hparsing henabled ht hout hheader hframe =>
        have hnone : Step.answerable ⟨s, a, out, t⟩ = {} := Step.answerable_of_none fun header hheader => by
          rw [hframe] at hheader
          cases hheader
        have hclient : t.client = (a.perform s.client).1 := by rw [ht]
        rw [hnone, hclient]
        cases hrun.sent hstep with
        | none hconnect hflush heq =>
            rw [heq]
            exact .of_pending (Action.perform_pending s.client hconnect hflush)
        | connect ha heq =>
            subst ha
            rw [heq]
            exact ⟨fun _ => Nat.zero_add _, (List.append_nil _).symm, [], rfl, rfl, rfl⟩
        | flush ha hgoaway heq =>
            subst ha
            rw [heq]
            simp only [Action.perform, preparePendingSendQueue, hgoaway]
            exact ⟨fun _ => rfl, rfl, [], rfl, rfl, rfl⟩

/-- A RST_STREAM frame as it is written. -/
def rstOf (rst : Nat × Error) : Nat × Nat := (rst.1, rst.2.value)

/-- Between two calls of `parse_frames` no stream is reset. -/
theorem Step.resets_perform {x : Step} (hids : x.before.client.streamIds.Nodup)
    (h : x.after.client = (x.action.perform x.before.client).1) : x.resets = [] := by
  obtain ⟨new, hclosed, -, hnil, -⟩ := Action.perform_closes hids x.action
  have hnew : x.closed = new := by rw [Step.closed, h, hclosed, List.drop_left]
  unfold Step.resets
  split
  · rfl
  · rw [hnew]
    exact hnil

theorem SystemRun.accounts_resets (hrun : SystemRun xs s) (hstep : s.step a = some (t, out)) :
    Step.rstStreamsSent ⟨s, a, out, t⟩ ++ t.client.pendingRstStreams.map rstOf =
      s.client.pendingRstStreams.map rstOf ++ (Step.resets ⟨s, a, out, t⟩).map rstOf := by
  have hinv := SystemRun.invariant hrun
  have hsent : Step.rstStreamsSent ⟨s, a, out, t⟩ = (Step.control ⟨s, a, out, t⟩).rstStreams := rfl
  by_cases ha : a = .flush
  · subst ha
    cases System.step_cases hstep with
    | next u ha' => cases ha'
    | done c ha' => cases ha'
    | perform _ hparsing henabled ht hout =>
        have hclient : t.client = s.client.preparePendingSendQueue.1 := by rw [ht]; rfl
        rw [Step.resets_perform hinv.parser.nodup hclient, List.map_nil, List.append_nil, hclient, hsent]
        cases hrun.sent hstep with
        | connect ha => cases ha
        | none hconnect hflush heq =>
            obtain ⟨ec, hec⟩ := Option.isSome_iff_exists.1 (hflush rfl)
            simp only [heq, preparePendingSendQueue, hec, List.nil_append]
        | flush ha hgoaway heq =>
            simp only [heq, preparePendingSendQueue, hgoaway, List.map_nil, List.append_nil]
            rfl
  · rw [(hinv.closes hstep).2 ha, List.map_append, hsent]
    cases hrun.sent hstep with
    | none hconnect hflush heq => rw [heq, List.nil_append]
    | connect ha heq => rw [heq, List.nil_append]
    | flush ha' => exact absurd ha' ha

end Rad.Http2
