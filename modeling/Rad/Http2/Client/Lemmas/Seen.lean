import Rad.Http2.Client.Lemmas.Resets

/-!
# The steps of the system and what is seen of them

A step is a pass that accepts a frame header, a pass over a payload, a pass that ends a call of `parse_frames`, or a step
between two calls. Each of them is given with the frames that it receives.
-/

namespace Rad.Http2

open Lib Client

variable {s t : System} {a : Action} {out : List SentFrame} {xs : List Step}

/-- What a step has done, and the frames that it has received. -/
inductive Seen (s : System) (a : Action) (out : List SentFrame) (t : System) : Prop where
  | header (c : Client) (header : FrameHeader) (hlen : 9 ≤ s.client.rbuf.length)
      (heq : header = .ofBuffer (s.client.rbuf.take 9))
      (hstep : HeaderStep { s.client with rbuf := s.client.rbuf.drop 9 } header c) (ha : a = .pass)
      (ht : t = { s with client := (c.acceptHeader header).client, parsing := some (c.acceptHeader header).hasZeroPayload })
      (hstage : s.client.parserStage = .header)
      (hout : out = []) (hheader : Step.headerReceived ⟨s, a, out, t⟩ = some header)
      (hframe : Step.frameReceived ⟨s, a, out, t⟩ = none)
      (hvalid : header.isValidFrame s.client.lastHeader s.client.selfMaxPayloadSize false false s.client.lastClientId
        s.client.lastServerId = true)
  | payload (header : FrameHeader) (payload : PayloadStage) (hlast : s.client.lastHeader = some header)
      (hstage : s.client.parserStage = .payload payload) (hacc : Accepted s.client.lastClientId header payload)
      (hec : failed (s.client.processFramePayload header payload).2 = false) (ha : a = .pass)
      (ht : t = { s with client := (s.client.processFramePayload header payload).1, parsing := some false })
      (hout : out = []) (hheader : Step.headerReceived ⟨s, a, out, t⟩ = none)
      (hframe : Step.frameReceived ⟨s, a, out, t⟩ = if t.client.parserStage = .header then some header else none)
  | done (rbufExhausted : Bool) (ha : a = .pass)
      (ht : t = { s with client := { s.client with rbufExhausted }, parsing := none }) (hout : out = [])
      (hheader : Step.headerReceived ⟨s, a, out, t⟩ = none) (hframe : Step.frameReceived ⟨s, a, out, t⟩ = none)
  | perform (ha : a ≠ .pass) (hparsing : s.parsing = none) (henabled : a.enabled s = true)
      (ht : t = { s with client := (a.perform s.client).1, connected := s.connected || a = .connect })
      (hout : out = (a.perform s.client).2)
      (hheader : Step.headerReceived ⟨s, a, out, t⟩ = none) (hframe : Step.frameReceived ⟨s, a, out, t⟩ = none)

theorem SystemInvariant.seen (h : SystemInvariant s) (hstep : s.step a = some (t, out)) : Seen s a out t := by
  cases System.step_cases hstep with
  | next u ha hpass ht hout =>
      subst ha hout
      cases (parsePass_next hpass).2 with
      | header c header hstage hlen heq hvalidate hu =>
          subst hu ht
          have hheader := validateFrameHeader_step (congrArg Prod.snd hvalidate)
          rw [hvalidate] at hheader
          have hbefore : s.client.parserStage = .header := hstage
          have hvalid := validateFrameHeader_isValidFrame (congrArg Prod.snd hvalidate)
          refine .header c header hlen heq hheader rfl rfl hstage rfl ?_ ?_ hvalid
          · have hafter : (c.acceptHeader header).client.parserStage ≠ .header := by simp [acceptHeader]
            rw [Step.headerReceived, if_pos ⟨rfl, hbefore, hafter⟩, heq]
            rfl
          · rw [Step.frameReceived, if_neg fun hcond => hcond.2.1 hbefore]
      | payload payload hstage hmin hec hu =>
          obtain ⟨header, hlast, hacc⟩ := h.parser.stage payload hstage
          subst hu ht
          have hbefore : s.client.parserStage = .payload payload := hstage
          have hlast : s.client.lastHeader = some header := hlast
          have hclient : s.parseState.client = s.client := rfl
          rw [hclient, hlast, Option.getD_some] at hec
          refine .payload header payload hlast hstage hacc hec rfl ?_ rfl ?_ ?_
          · rw [hclient, hlast, Option.getD_some]
          · rw [Step.headerReceived, if_neg fun hcond => by rw [hbefore] at hcond; cases hcond.2.1]
          · simp only [Step.frameReceived, hbefore, hlast]
            simp
  | done c ha hdone ht hout =>
      subst ha hout ht
      obtain ⟨rbufExhausted, rfl⟩ := hdone.eq
      refine .done rbufExhausted rfl rfl rfl ?_ ?_
      · rw [Step.headerReceived, if_neg fun hcond => hcond.2.2 hcond.2.1]
      · rw [Step.frameReceived, if_neg fun hcond => hcond.2.1 hcond.2.2]
  | perform ha hparsing henabled ht hout =>
      refine .perform ha hparsing henabled ht hout ?_ ?_
      · rw [Step.headerReceived, if_neg fun hcond => ha hcond.1]
      · rw [Step.frameReceived, if_neg fun hcond => ha hcond.1]

/-- The preface is sent once. -/
theorem System.connected_of_step (hstep : s.step a = some (t, out)) :
    (a = .connect → s.connected = false ∧ t.connected = true) ∧ (a ≠ .connect → t.connected = s.connected) := by
  cases System.step_cases hstep with
  | next u ha hpass ht hout => exact ⟨fun ha' => by simp [ha] at ha', fun _ => by rw [ht]⟩
  | done c ha hdone ht hout => exact ⟨fun ha' => by simp [ha] at ha', fun _ => by rw [ht]⟩
  | perform ha hparsing henabled ht hout =>
      refine ⟨fun ha' => ?_, fun hconnect => by simp [ht, hconnect]⟩
      subst ha'
      simp only [Action.enabled, Bool.and_eq_true, Bool.not_eq_true'] at henabled
      exact ⟨henabled.1, by simp [ht]⟩

/-! ## Passes that are made -/

theorem System.step_of_next {s : System} {u : ParseState} (hconnected : s.connected = true)
    (h : parsePass s.parseState = .next u) :
    s.step .pass = some ({ s with client := u.client, parsing := some u.hasZeroPayload }, []) := by
  simp [System.step, Action.enabled, hconnected, System.passStep, h]

theorem System.step_of_done {s : System} {c : Client} (hconnected : s.connected = true)
    (h : parsePass s.parseState = .done (c, none)) :
    s.step .pass = some ({ s with client := c, parsing := none }, []) := by
  simp [System.step, Action.enabled, hconnected, System.passStep, h, failed]

theorem System.step_of_enabled {s : System} {a : Action} (ha : a ≠ .pass) (hparsing : s.parsing = none)
    (henabled : a.enabled s = true) :
    s.step a = some ({ s with client := (a.perform s.client).1, connected := s.connected || a = .connect },
      (a.perform s.client).2) := by
  simp [System.step, henabled, ha, hparsing]

/-! ## Identifiers -/

/-- The identifiers of the open streams are not 0, which stands for the connection. -/
theorem SystemRun.streamIds_pos (h : SystemRun xs s) : ∀ id ∈ s.client.streamIds, 0 < id := by
  induction h with
  | start => simp [streamIds]
  | next h hstep ih =>
      obtain ⟨new, hsub, -, hless⟩ := ((SystemRun.invariant h).idsGrow hstep).streamIds
      intro id hmem
      rcases List.mem_append.1 (hsub.subset hmem) with hold | hnew
      · exact ih id hold
      · exact Nat.zero_lt_of_lt (hless id hnew).1

theorem SystemRun.openStreams_pos (h : SystemRun xs s) : ∀ r ∈ s.client.openStreams, 0 < r.id :=
  fun r hr => h.streamIds_pos r.id (List.mem_map_of_mem hr)

/-! ## Sent frames -/

/-- The frames that the queues of the client are written to. -/
def SentFrame.isControl : SentFrame → Bool
  | .goaway _ _ _ => false
  | .data _ _ => false
  | .headers _ _ => false
  | _ => true

theorem Action.perform_output (c : Client) {a : Action} (hconnect : a ≠ .connect) (hflush : a ≠ .flush) :
    ∀ f ∈ (a.perform c).2, f.isControl = false := by
  cases a with
  | connect => exact absurd rfl hconnect
  | flush => exact absurd rfl hflush
  | sendRequest =>
      simp only [Action.perform, List.mem_map, forall_exists_index, and_imp, forall_apply_eq_imp_iff₂]
      exact fun _ _ => rfl
  | sendBodies =>
      simp only [Action.perform, List.mem_map, forall_exists_index, and_imp, forall_apply_eq_imp_iff₂]
      exact fun _ _ => rfl
  | _ => exact fun f hf => by cases hf

/-- The control frames of a step. -/
structure Control where
  settingsAcks : Nat := 0
  settings : List SettingsFrame := []
  pingAcks : List Nat := []
  rstStreams : List (Nat × Nat) := []
  windowIncrements : List Nat := []

/-- The control frames that are seen in a step. -/
def Step.control (x : Step) : Control where
  settingsAcks := x.settingsAcksSent.length
  settings := x.settingsSent
  pingAcks := x.pingAcksSent
  rstStreams := x.rstStreamsSent
  windowIncrements := x.windowIncrementsSent

theorem Step.control_of_none {x : Step} (h : ∀ f ∈ x.output, f.isControl = false) : x.control = {} := by
  have hnone : ∀ {β : Type} (g : SentFrame → Option β), (∀ f, f.isControl = false → g f = none) →
      x.output.filterMap g = [] :=
    fun g hg => List.filterMap_eq_nil_iff.2 fun f hf => hg f (h f hf)
  have hacks : x.settingsAcksSent = [] := by
    refine List.filter_eq_nil_iff.2 fun f hf heq => ?_
    have hcontrol := h f hf
    rw [of_decide_eq_true heq] at hcontrol
    cases hcontrol
  have hsettings : x.settingsSent = [] := hnone _ fun f hf => by cases f <;> first | rfl | cases hf
  have hpings : x.pingAcksSent = [] := hnone _ fun f hf => by cases f <;> first | rfl | cases hf
  have hrst : x.rstStreamsSent = [] := hnone _ fun f hf => by cases f <;> first | rfl | cases hf
  have hwindow : x.windowIncrementsSent = [] := hnone _ fun f hf => by cases f <;> first | rfl | cases hf
  rw [Step.control, hacks, hsettings, hpings, hrst, hwindow]
  rfl

/-- Nothing is written, or a request, or a GOAWAY frame. -/
theorem Action.control_perform {x : Step} {c : Client} (hconnect : x.action ≠ .connect)
    (hflush : x.action = .flush → c.toSendGoawayEc.isSome) (hout : x.output = (x.action.perform c).2) :
    x.control = {} := by
  refine Step.control_of_none fun f hf => ?_
  rw [hout] at hf
  by_cases ha : x.action = .flush
  · obtain ⟨ec, hec⟩ := Option.isSome_iff_exists.1 (hflush ha)
    rw [ha, Action.perform, preparePendingSendQueue, hec] at hf
    simp only [List.mem_singleton] at hf
    subst hf
    rfl
  · exact Action.perform_output c hconnect ha f hf

/-- The PING frames that are to be acknowledged. -/
def Client.pendingPingAcks (c : Client) : List Nat :=
  c.pendingPings.filterMap fun ping => if ping.2 then some ping.1 else none

/-- What a flush without a GOAWAY frame writes. -/
theorem Step.control_flush {x : Step} {c : Client} (hgoaway : c.toSendGoawayEc = none)
    (hpos : ∀ s ∈ c.openStreams, 0 < s.id) (hout : x.output = c.preparePendingSendQueue.2) :
    x.control =
      { settingsAcks := c.pendingSettingsAcks
        settings := c.pendingSendSettings.toList
        pingAcks := c.pendingPingAcks
        rstStreams := c.pendingRstStreams.map fun rst => (rst.1, rst.2.value)
        windowIncrements := if c.windowSize ≤ minAllowedWindowSize then [windowIncrement c.windowSize] else [] } := by
  have hstreams : ∀ f ∈ streamWindowUpdates c.openStreams, ∃ id increment, 0 < id ∧ f = .windowUpdate id increment := by
    intro f hf
    obtain ⟨s, hs, rfl⟩ := List.mem_map.1 hf
    exact ⟨s.id, _, hpos s (List.mem_of_mem_filter hs), rfl⟩
  have hnone : ∀ {β : Type} (g : SentFrame → Option β), (∀ id increment, 0 < id → g (.windowUpdate id increment) = none) →
      (streamWindowUpdates c.openStreams).filterMap g = [] := by
    refine fun g hg => List.filterMap_eq_nil_iff.2 fun f hf => ?_
    obtain ⟨id, increment, hid, rfl⟩ := hstreams f hf
    exact hg id increment hid
  have hfilter : (streamWindowUpdates c.openStreams).filter (· = .settingsAck) = [] := by
    refine List.filter_eq_nil_iff.2 fun f hf => ?_
    obtain ⟨id, increment, hid, rfl⟩ := hstreams f hf
    simp
  unfold preparePendingSendQueue at hout
  rw [hgoaway] at hout
  clear hstreams
  simp only [Step.control, settingsAcksSent, settingsSent, pingAcksSent, rstStreamsSent, windowIncrementsSent, hout,
    List.filterMap_append, List.filter_append, hfilter]
  rw [hnone _ fun _ _ _ => rfl, hnone _ fun _ _ _ => rfl, hnone _ fun _ _ _ => rfl,
    hnone _ fun id increment hid => by obtain ⟨n, rfl⟩ := Nat.exists_eq_succ_of_ne_zero hid.ne'; rfl]
  congr 1
  · split <;> simp [List.filter_map]
  · split <;> simp [List.filterMap_map]
  · split <;>
    · simp [List.filterMap_map, pendingPingAcks]
      exact List.filterMap_congr fun ping _ => by rcases ping with ⟨n, _ | _⟩ <;> rfl
  · split <;> simp [List.filterMap_map]
  · split <;> simp [List.filterMap_map]

/-- The control frames that a step sends. -/
inductive Sent (s : System) (a : Action) (control : Control) : Prop where
  | none (hconnect : a ≠ .connect) (hflush : a = .flush → s.client.toSendGoawayEc.isSome) (heq : control = {})
  | connect (ha : a = .connect)
      (heq : control = { settings := [connectSettings], windowIncrements := [defaultClientWindowSize.toNat] })
  | flush (ha : a = .flush) (hgoaway : s.client.toSendGoawayEc = none)
      (heq : control =
        { settingsAcks := s.client.pendingSettingsAcks
          settings := s.client.pendingSendSettings.toList
          pingAcks := s.client.pendingPingAcks
          rstStreams := s.client.pendingRstStreams.map fun rst => (rst.1, rst.2.value)
          windowIncrements :=
            if s.client.windowSize ≤ minAllowedWindowSize then [windowIncrement s.client.windowSize] else [] })

theorem SystemRun.sent (hrun : SystemRun xs s) (hstep : s.step a = some (t, out)) :
    Sent s a (Step.control ⟨s, a, out, t⟩) := by
  have hpass : a = .pass → out = [] → Sent s a (Step.control ⟨s, a, out, t⟩) := by
    rintro rfl rfl
    exact .none (by simp) (by simp) rfl
  cases System.step_cases hstep with
  | next u ha hnext ht hout => exact hpass ha hout
  | done c ha hdone ht hout => exact hpass ha hout
  | perform ha hparsing henabled ht hout =>
      by_cases hconnect : a = .connect
      · subst hconnect hout
        exact .connect rfl rfl
      · by_cases hflush : a = .flush ∧ s.client.toSendGoawayEc = none
        · obtain ⟨rfl, hgoaway⟩ := hflush
          exact .flush rfl hgoaway (Step.control_flush hgoaway hrun.openStreams_pos hout)
        · have hgoaway : a = .flush → s.client.toSendGoawayEc.isSome := fun ha => by
            rw [Option.isSome_iff_ne_none]
            exact fun hgoaway => hflush ⟨ha, hgoaway⟩
          exact .none hconnect hgoaway (Action.control_perform hconnect hgoaway hout)

end Rad.Http2
