import Rad.Http2.Client.Lemmas.Fields
import Rad.Http2.Client.Lemmas.Invariant
import Rad.Http2.Client.Lemmas.Streams
import Rad.Http2.Client.System

/-!
# The steps of the system

A step is inverted once. Between the calls of `parse_frames` the parser's own state is left alone, and streams only get
identifiers that were not used before, so what holds before every pass holds in every state of a run.
-/

/-! ## What the other coroutines do

Sending a request and closing a stream keep what the parser relies on.
-/

namespace Rad.Http2.Client

theorem makeNewStreamId_spec {c : Client} (hlt : c.lastClientId + 2 < 2 ^ 32) :
    c.lastClientId < c.makeNewStreamId.2.lastClientId ∧
      (c.makeNewStreamId.1 = 0 ∨ c.makeNewStreamId.1 = c.makeNewStreamId.2.lastClientId) ∧
      ∃ lastClientId toSendGoawayEc, c.makeNewStreamId.2 = { c with lastClientId, toSendGoawayEc } := by
  unfold makeNewStreamId
  split
  · exact ⟨by simp only; omega, .inr rfl, _, _, rfl⟩
  · simp only [Nat.mod_eq_of_lt hlt]
    split
    · exact ⟨by simp only; omega, .inl rfl, _, _, rfl⟩
    · exact ⟨by simp only; omega, .inr rfl, _, _, rfl⟩

theorem sendOneStreamRequest_rely {c : Client} (hlt : c.lastClientId + 2 < 2 ^ 32) : Rely c c.sendOneStreamRequest.1 := by
  obtain ⟨hless, hid, lastClientId, ec, hfields⟩ := makeNewStreamId_spec hlt
  unfold sendOneStreamRequest
  split
  · exact ⟨rfl, rfl, rfl, rfl, rfl, id, Nat.le_refl _, [], by simp, List.nodup_nil, by simp⟩
  · rename_i s idleStreams hidle
    rcases hnew : c.makeNewStreamId with ⟨newId, c'⟩
    simp only [hnew] at hless hid hfields ⊢
    subst hfields
    simp only at hless hid ⊢
    split
    · exact ⟨rfl, rfl, rfl, rfl, rfl, id, Nat.le_of_lt hless, [], by simp [streamIds], List.nodup_nil, by simp⟩
    · rename_i hzero
      obtain rfl := hid.resolve_left hzero
      refine ⟨rfl, rfl, rfl, rfl, rfl, id, Nat.le_of_lt hless, [newId], ?_, List.nodup_singleton _, ?_⟩
      · have hopened : (openedStream s newId (wrapInt32 c.selfStreamsInitialWindowSize)).id = newId := by
          unfold openedStream
          simp only
          split <;> rfl
        simp [streamIds, hopened]
      · simpa using hless

end Rad.Http2.Client

namespace Rad.Http2

open Lib Client

/-! ## Inversion -/

/-- What a step of the system has done. -/
inductive StepCase (s : System) (a : Action) (t : System) (out : List SentFrame) : Prop where
  | next (u : ParseState) (ha : a = .pass) (hpass : parsePass s.parseState = .next u)
      (ht : t = { s with client := u.client, parsing := some u.hasZeroPayload }) (hout : out = [])
  | done (c : Client) (ha : a = .pass) (hdone : DonePass s.parseState c) (ht : t = { s with client := c, parsing := none })
      (hout : out = [])
  | perform (ha : a ≠ .pass) (hparsing : s.parsing = none) (henabled : a.enabled s = true)
      (ht : t = { s with client := (a.perform s.client).1, connected := s.connected || a = .connect })
      (hout : out = (a.perform s.client).2)

theorem System.step_cases {s t : System} {a : Action} {out : List SentFrame} (h : s.step a = some (t, out)) :
    StepCase s a t out := by
  unfold System.step at h
  split at h
  · cases h
  · rename_i henabled
    split at h
    · rename_i ha
      obtain ⟨t', ht', heq⟩ := Option.map_eq_some_iff.1 h
      cases heq
      unfold System.passStep at ht'
      split at ht'
      · rename_i u hpass
        cases ht'
        exact .next u ha hpass rfl rfl
      · rename_i c ec hdone
        split at ht'
        · cases ht'
        · rename_i hec
          cases ht'
          exact .done c ha (parsePass_done hdone (by simpa using hec)) rfl rfl
    · rename_i ha
      split at h
      · cases h
      · rename_i hparsing
        cases h
        exact .perform ha (by simpa using hparsing) (by simpa using henabled) rfl rfl

theorem System.enabled_of_step {s t : System} {a : Action} {out : List SentFrame} (hstep : s.step a = some (t, out)) :
    a.enabled s = true := by
  unfold System.step at hstep
  split at hstep
  · cases hstep
  · rename_i henabled
    simpa using henabled

/-! ## Identifiers -/

/-- The streams that are opened get identifiers above all the ones before. -/
structure IdsGrow (c c' : Client) : Prop where
  lastClientId : c.lastClientId ≤ c'.lastClientId
  streamIds : ∃ new : List Nat, c'.streamIds.Sublist (c.streamIds ++ new) ∧ new.Nodup ∧
    ∀ id ∈ new, c.lastClientId < id ∧ id ≤ c'.lastClientId

theorem IdsGrow.of_sublist {c c' : Client} (hlast : c'.lastClientId = c.lastClientId)
    (h : c'.streamIds.Sublist c.streamIds) : IdsGrow c c' :=
  ⟨Nat.le_of_eq hlast.symm, [], by simpa using h, List.nodup_nil, by simp⟩

theorem IdsGrow.refl (c : Client) : IdsGrow c c := .of_sublist rfl (.refl _)

theorem Rely.idsGrow {c c' : Client} (h : Rely c c') : IdsGrow c c' := ⟨h.lastClientId, h.streamIds⟩

/-- An identifier that is used and not open is never open again. -/
theorem IdsGrow.closed {c c' : Client} (h : IdsGrow c c') {id : Nat} (hle : id ≤ c.lastClientId)
    (hclosed : id ∉ c.streamIds) : id ≤ c'.lastClientId ∧ id ∉ c'.streamIds := by
  obtain ⟨new, hsub, -, hless⟩ := h.streamIds
  refine ⟨hle.trans h.lastClientId, fun hmem => ?_⟩
  rcases List.mem_append.1 (hsub.subset hmem) with hold | hnew
  · exact hclosed hold
  · have := (hless id hnew).1
    omega

/-! ## Between the calls of `parse_frames` -/

/-- The parser's own state that the other coroutines leave alone. -/
structure Spared (c c' : Client) : Prop where
  parserStage : c'.parserStage = c.parserStage
  lastHeader : c'.lastHeader = c.lastHeader
  hpackReadBuff : c'.hpackReadBuff = c.hpackReadBuff
  ids : IdsGrow c c'

/-- Identifiers are left, or a GOAWAY frame is to be sent and no stream is opened any more. -/
def IdsLeft (c : Client) : Prop := c.lastClientId ≤ maxStreamId ∨ c.toSendGoawayEc.isSome

theorem foldl_untouched {f : Client → Stream → Client} (hf : ∀ c s, Untouched c (f c s)) (l : List Stream) (c : Client) :
    Untouched c (l.foldl f c) := by
  induction l generalizing c with
  | nil => exact .refl c
  | cons s l ih => exact (hf c s).trans (ih _)

theorem finishBody_untouched (c : Client) (s : Stream) : Untouched c (c.finishBody s) := by
  unfold finishBody
  split
  · exact .refl c
  · have hmodify : Untouched c (c.modifyStream s.id Stream.sendES) := modifyStream_untouched c s.id fun _ => rfl
    dsimp only
    split
    · exact hmodify.trans (closeOpenStream_untouched _ _ _ _)
    · exact hmodify

theorem finishBodies_untouched (c : Client) : Untouched c c.finishBodies := foldl_untouched finishBody_untouched _ c

theorem collectSweep_ids (maxChunkSize : Nat) (streams : List Stream) (totalSize availableFrames : Nat) :
    (collectSweep maxChunkSize streams totalSize availableFrames).streams.map Stream.id = streams.map Stream.id := by
  induction streams generalizing totalSize availableFrames with
  | nil => rfl
  | cons s rest ih =>
      rw [collectSweep]
      split
      · simp [ih]
      · dsimp only
        split
        · rfl
        · simp [ih]

theorem collectLoop_ids (maxChunkSize : Nat) (streams : List Stream) (totalSize availableFrames : Nat) :
    (collectLoop maxChunkSize streams totalSize availableFrames).streams.map Stream.id = streams.map Stream.id := by
  fun_induction collectLoop maxChunkSize streams totalSize availableFrames with
  | case1 streams totalSize availableFrames h r hcollected => exact collectSweep_ids _ _ _ _
  | case2 streams totalSize availableFrames h r hcollected rest ih => exact ih.trans (collectSweep_ids _ _ _ _)
  | case3 streams totalSize availableFrames h => rfl

theorem collectDataFrames_ids (c : Client) : c.collectDataFrames.1.streamIds = c.streamIds := collectLoop_ids _ _ _ _

theorem preparePendingSendQueue_ids (c : Client) : c.preparePendingSendQueue.1.streamIds = c.streamIds := by
  unfold preparePendingSendQueue
  split
  · rfl
  · simp only [streamIds, List.map_map]
    refine List.map_congr_left fun s _ => ?_
    simp only [Function.comp_apply]
    split <;> rfl

theorem maxHeadersSize_eq (c : Client) (n : Nat) :
    ∃ sframe, c.maxHeadersSize n = { c with pendingSendSettings := sframe } := by
  unfold maxHeadersSize updateSettings
  split
  · exact ⟨c.pendingSendSettings, rfl⟩
  · split
    · exact ⟨c.pendingSendSettings, rfl⟩
    · split
      · exact ⟨c.pendingSendSettings, rfl⟩
      · split
        · exact ⟨c.pendingSendSettings, rfl⟩
        · split <;> exact ⟨_, rfl⟩

theorem makeNewStreamId_eq (c : Client) :
    ∃ lastClientId toSendGoawayEc, c.makeNewStreamId.2 = { c with lastClientId, toSendGoawayEc } := by
  unfold makeNewStreamId
  split
  · exact ⟨_, _, rfl⟩
  · dsimp only
    split <;> exact ⟨_, _, rfl⟩

/-- The request that is sent is one of those that wait, and is the last of the open streams. -/
theorem sendOneStreamRequest_eq (c : Client) :
    ∃ lastClientId toSendGoawayEc hencoder idleStreams new, c.sendOneStreamRequest.1 =
        { c with lastClientId, toSendGoawayEc, hencoder, idleStreams, openStreams := c.openStreams ++ new } ∧
      idleStreams ⊆ c.idleStreams ∧
      (new = [] ∨ ∃ r ∈ c.idleStreams, ∃ id windowSize, new = [openedStream r id windowSize]) := by
  unfold sendOneStreamRequest
  split
  · exact ⟨_, _, _, _, [], by rw [List.append_nil], List.Subset.refl _, .inl rfl⟩
  · rename_i r idleStreams hidle
    obtain ⟨_, _, heq⟩ := makeNewStreamId_eq c
    rcases hid : c.makeNewStreamId with ⟨newId, d⟩
    rw [hid] at heq
    dsimp only at heq ⊢
    subst heq
    split
    · exact ⟨_, _, _, _, [], by rw [List.append_nil], List.Subset.refl _, .inl rfl⟩
    · refine ⟨_, _, _, _, [_], rfl, ?_, .inr ⟨r, ?_, newId, _, rfl⟩⟩
      · rw [hidle]
        exact List.subset_cons_self _ _
      · rw [hidle]
        exact List.mem_cons_self ..

/-- A request is only sent while no GOAWAY frame is to be sent. -/
theorem Action.enabled_sendRequest {s : System} (henabled : Action.sendRequest.enabled s = true) :
    s.client.toSendGoawayEc = none := by
  simp only [Action.enabled, sendQueueEmpty, Bool.and_eq_true, Option.isNone_iff_eq_none] at henabled
  exact henabled.1.2.1.1.1.1.2

theorem Action.perform_spared {s : System} (hids : IdsLeft s.client) {a : Action} (henabled : a.enabled s = true) :
    Spared s.client (a.perform s.client).1 := by
  cases a with
  | connect => exact ⟨rfl, rfl, rfl, .of_sublist rfl (.refl _)⟩
  | read chunk => exact ⟨rfl, rfl, rfl, .of_sublist rfl (.refl _)⟩
  | pass => exact ⟨rfl, rfl, rfl, .refl _⟩
  | flush =>
      refine ⟨?_, ?_, ?_, .of_sublist ?_ (by rw [Action.perform, preparePendingSendQueue_ids])⟩ <;>
      · simp only [Action.perform, preparePendingSendQueue]
        split <;> rfl
  | sendRequest =>
      have hgoaway : s.client.lastClientId ≤ maxStreamId :=
        hids.resolve_right (by simp [Action.enabled_sendRequest henabled])
      have hrely := sendOneStreamRequest_rely (c := s.client) (by unfold maxStreamId at hgoaway; omega)
      exact ⟨hrely.parserStage, hrely.lastHeader, hrely.hpackReadBuff, hrely.idsGrow⟩
  | sendBodies => exact ⟨rfl, rfl, rfl, .of_sublist rfl (by rw [Action.perform, collectDataFrames_ids])⟩
  | finishBodies =>
      obtain ⟨openStreams, closedStreams, pendingRstStreams, closedAStream, heq⟩ :=
        finishBodies_streamsOnly s.client
      have hids := (finishBodies_untouched s.client).streamIds
      rw [Action.perform]
      simp only [heq] at hids ⊢
      exact ⟨rfl, rfl, rfl, .of_sublist rfl hids⟩
  | request r => exact ⟨rfl, rfl, rfl, .of_sublist rfl (.refl _)⟩
  | abandonIdle i => exact ⟨rfl, rfl, rfl, .of_sublist rfl (.refl _)⟩
  | abandon id => exact ⟨rfl, rfl, rfl, .of_sublist rfl ((List.eraseIdx_sublist _ _).map _)⟩
  | ping => exact ⟨rfl, rfl, rfl, .of_sublist rfl (.refl _)⟩
  | maxHeadersSize n =>
      obtain ⟨sframe, heq⟩ := maxHeadersSize_eq s.client n
      rw [Action.perform, heq]
      exact ⟨rfl, rfl, rfl, .of_sublist rfl (.refl _)⟩
  | maxBodySize n => exact ⟨rfl, rfl, rfl, .of_sublist rfl (.refl _)⟩
  | maxContinuationFrames n => exact ⟨rfl, rfl, rfl, .of_sublist rfl (.refl _)⟩
  | asyncClose ec =>
      simp only [Action.perform, Client.asyncClose]
      split
      · exact ⟨rfl, rfl, rfl, .refl _⟩
      · exact ⟨rfl, rfl, rfl, .of_sublist rfl (.refl _)⟩
  | stop => exact ⟨rfl, rfl, rfl, .of_sublist rfl (.refl _)⟩

/-- No identifier is taken, and a GOAWAY frame that is to be sent stays to be sent. -/
structure KeepsIds (c c' : Client) : Prop where
  lastClientId : c'.lastClientId = c.lastClientId
  goaway : c.toSendGoawayEc.isSome → c'.toSendGoawayEc.isSome

theorem Client.PassKeeps.keepsIds {c c' : Client} (h : PassKeeps c c') : KeepsIds c c' :=
  ⟨h.lastClientId, fun hsome => by rwa [h.toSendGoawayEc]⟩

theorem IdsLeft.of_keeps {c c' : Client} (h : IdsLeft c) (hkeeps : KeepsIds c c') : IdsLeft c' :=
  h.imp (fun hle => by rwa [hkeeps.lastClientId]) hkeeps.goaway

/-- Behind a call of `make_new_stream_id`, sending a request takes no more identifiers. -/
theorem sendOneStreamRequest_keepsIds {c : Client} (hidle : c.idleStreams ≠ []) :
    KeepsIds c.makeNewStreamId.2 c.sendOneStreamRequest.1 := by
  unfold sendOneStreamRequest
  split
  · exact absurd ‹_› hidle
  · rcases c.makeNewStreamId with ⟨newId, d⟩
    dsimp only
    split <;> exact ⟨rfl, id⟩

theorem Action.perform_keepsIds (c : Client) {a : Action} (h : a = .sendRequest → c.idleStreams = []) :
    KeepsIds c (a.perform c).1 := by
  cases a with
  | flush =>
      simp only [Action.perform, preparePendingSendQueue]
      split <;> exact ⟨rfl, id⟩
  | sendRequest =>
      rw [Action.perform, sendOneStreamRequest, h rfl]
      exact ⟨rfl, id⟩
  | finishBodies =>
      obtain ⟨openStreams, closedStreams, pendingRstStreams, closedAStream, heq⟩ := finishBodies_streamsOnly c
      rw [Action.perform, heq]
      exact ⟨rfl, id⟩
  | maxHeadersSize n =>
      obtain ⟨sframe, heq⟩ := maxHeadersSize_eq c n
      rw [Action.perform, heq]
      exact ⟨rfl, id⟩
  | asyncClose ec =>
      simp only [Action.perform, Client.asyncClose]
      split
      · exact ⟨rfl, id⟩
      · exact ⟨rfl, fun _ => rfl⟩
  | connect => exact ⟨rfl, id⟩
  | read chunk => exact ⟨rfl, id⟩
  | pass => exact ⟨rfl, id⟩
  | sendBodies => exact ⟨rfl, id⟩
  | request r => exact ⟨rfl, id⟩
  | abandonIdle i => exact ⟨rfl, id⟩
  | abandon id => exact ⟨rfl, fun hsome => hsome⟩
  | ping => exact ⟨rfl, id⟩
  | maxBodySize n => exact ⟨rfl, id⟩
  | maxContinuationFrames n => exact ⟨rfl, id⟩
  | stop => exact ⟨rfl, id⟩

/-- What a call of `make_new_stream_id` does while identifiers are left. -/
theorem makeNewStreamId_left {c : Client} (hle : c.lastClientId ≤ maxStreamId) :
    c.makeNewStreamId.2.toSendGoawayEc.isSome ∧ c.makeNewStreamId.1 = 0 ∨
      c.makeNewStreamId.1 = (if c.lastClientId = 0 then 1 else c.lastClientId + 2) ∧
        c.makeNewStreamId.1 ≤ maxStreamId ∧ c.makeNewStreamId.2.lastClientId = c.makeNewStreamId.1 := by
  unfold makeNewStreamId
  split
  · exact .inr ⟨rfl, by simp only; decide, rfl⟩
  · have hmod : (c.lastClientId + 2) % 2 ^ 32 = c.lastClientId + 2 :=
      Nat.mod_eq_of_lt (by unfold maxStreamId at hle; omega)
    dsimp only
    split
    · exact .inl ⟨by cases c.toSendGoawayEc <;> rfl, rfl⟩
    · rename_i hless
      simp only [Bool.or_eq_true, decide_eq_true_eq, not_or, Nat.not_lt] at hless
      exact .inr ⟨hmod, hless.1, rfl⟩

theorem Action.perform_idsLeft {s : System} (hids : IdsLeft s.client) {a : Action} (henabled : a.enabled s = true) :
    IdsLeft (a.perform s.client).1 := by
  by_cases h : a = .sendRequest ∧ s.client.idleStreams ≠ []
  · obtain ⟨rfl, hidle⟩ := h
    have hle := hids.resolve_right (by simp [Action.enabled_sendRequest henabled])
    refine IdsLeft.of_keeps ?_ (sendOneStreamRequest_keepsIds hidle)
    rcases makeNewStreamId_left hle with ⟨hgoaway, -⟩ | ⟨-, hid, hlast⟩
    · exact .inr hgoaway
    · exact .inl (hlast ▸ hid)
  · exact hids.of_keeps (Action.perform_keepsIds _ fun ha => by_contra fun hidle => h ⟨ha, hidle⟩)

/-- The queues of the client and the fields of its settings. -/
structure Queues where
  closedStreams : List Stream
  pendingRstStreams : List (Nat × Error)
  pendingPings : List (Nat × Bool)
  pendingSettingsAcks : Nat
  pendingAckSettings : List SettingsFrame
  pendingSendSettings : Option SettingsFrame
  windowSize : Int
  selfStreamsInitialWindowSize : Nat
  selfMaxPayloadSize : Nat
  selfMaxHeaderListSize : Nat

def Client.queues (c : Client) : Queues where
  closedStreams := c.closedStreams
  pendingRstStreams := c.pendingRstStreams
  pendingPings := c.pendingPings
  pendingSettingsAcks := c.pendingSettingsAcks
  pendingAckSettings := c.pendingAckSettings
  pendingSendSettings := c.pendingSendSettings
  windowSize := c.windowSize
  selfStreamsInitialWindowSize := c.selfStreamsInitialWindowSize
  selfMaxPayloadSize := c.selfMaxPayloadSize
  selfMaxHeaderListSize := c.selfMaxHeaderListSize

/-- The steps that have nothing to do with the queues. -/
def Action.isQuiet : Action → Bool
  | .connect | .flush | .finishBodies | .ping | .maxHeadersSize _ => false
  | _ => true

theorem Action.perform_queues (c : Client) {a : Action} (hquiet : a.isQuiet = true) :
    (a.perform c).1.queues = c.queues := by
  cases a with
  | connect => cases hquiet
  | flush => cases hquiet
  | finishBodies => cases hquiet
  | ping => cases hquiet
  | maxHeadersSize n => cases hquiet
  | sendRequest =>
      obtain ⟨_, _, _, _, _, heq, -⟩ := sendOneStreamRequest_eq c
      rw [Action.perform, heq]
      rfl
  | asyncClose ec =>
      simp only [Action.perform, Client.asyncClose]
      split <;> rfl
  | read chunk => rfl
  | pass => rfl
  | sendBodies => rfl
  | request r => rfl
  | abandonIdle i => rfl
  | abandon id => rfl
  | maxBodySize n => rfl
  | maxContinuationFrames n => rfl
  | stop => rfl

/-! ## The invariant -/

/-- What holds in every state of every run. -/
structure SystemInvariant (s : System) : Prop where
  parser : Invariant s.parseState
  ids : IdsLeft s.client

theorem Invariant.of_spared {c c' : Client} (h : Invariant { client := c }) (hspared : Spared c c') :
    Invariant { client := c' } := by
  obtain ⟨new, hsub, hnew, hless⟩ := hspared.ids.streamIds
  have hdisjoint : c.streamIds.Disjoint new := fun id hmem hmem' => by
    have := h.ids id hmem
    have := (hless id hmem').1
    dsimp only at *
    omega
  refine ⟨hsub.nodup (h.nodup.append hnew hdisjoint), fun id hmem => ?_, fun payload hpayload => ?_,
    fun hzero => by cases hzero⟩
  · rcases List.mem_append.1 (hsub.subset hmem) with hold | hmem'
    · exact (h.ids id hold).trans hspared.ids.lastClientId
    · exact (hless id hmem').2
  · obtain ⟨header, hheader, hacc⟩ := h.stage payload (hspared.parserStage.symm.trans hpayload)
    exact ⟨header, hspared.lastHeader.trans hheader, hacc.mono hspared.ids.lastClientId⟩

theorem DonePass.eq {s : ParseState} {c' : Client} (h : DonePass s c') :
    ∃ rbufExhausted, c' = { s.client with rbufExhausted } := by
  cases h with
  | stops hstop heq => exact ⟨_, heq⟩
  | header hruns hstage hlen heq => exact ⟨_, heq⟩
  | payload hruns payload hstage hlen heq => exact ⟨_, heq⟩

theorem NextPass.keeps {s t : ParseState} (h : NextPass s t) : PassKeeps s.client t.client := by
  cases h with
  | header c' header hstage hlen heq hvalidate ht =>
      have hstep := validateFrameHeader_step (congrArg Prod.snd hvalidate)
      rw [hvalidate] at hstep
      obtain ⟨windowSize, hparser⟩ := hstep.parserOnly
      subst ht
      obtain ⟨_, _, _, _, _, _, _, _, _, _, _, rfl⟩ := hparser
      exact ⟨rfl, rfl, rfl, rfl, rfl⟩
  | payload payload hstage hmin hec ht =>
      subst ht
      exact processFramePayload_keeps _ _ _

theorem SystemInvariant.of_step {s t : System} {a : Action} {out : List SentFrame} (h : SystemInvariant s)
    (hstep : s.step a = some (t, out)) : SystemInvariant t := by
  cases System.step_cases hstep with
  | next u ha hpass ht hout =>
      subst ht
      exact ⟨h.parser.of_next hpass, h.ids.of_keeps (parsePass_next hpass).2.keeps.keepsIds⟩
  | done c ha hdone ht hout =>
      subst ht
      obtain ⟨rbufExhausted, rfl⟩ := hdone.eq
      exact ⟨h.parser.of_returned hdone.returned, h.ids⟩
  | perform ha hparsing henabled ht hout =>
      subst ht
      have hparser := h.parser
      simp only [System.parseState, hparsing, Option.getD_none] at hparser
      refine ⟨?_, Action.perform_idsLeft h.ids henabled⟩
      simp only [System.parseState, hparsing, Option.getD_none]
      exact hparser.of_spared (Action.perform_spared h.ids henabled)

theorem systemInvariant_start : SystemInvariant {} := by
  refine ⟨⟨List.nodup_nil, fun id hmem => ?_, fun payload hpayload => ?_, fun hzero => ?_⟩, .inl (by decide)⟩
  · cases hmem
  · cases hpayload
  · cases hzero

theorem SystemRun.invariant {xs : List (Transition System Action SentFrame)} {s : System} (h : SystemRun xs s) :
    SystemInvariant s :=
  Run.invariant h systemInvariant_start fun _ _ _ _ hs hstep => hs.of_step hstep

end Rad.Http2
