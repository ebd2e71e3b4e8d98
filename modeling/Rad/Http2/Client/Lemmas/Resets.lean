import Rad.Http2.Client.Lemmas.System
import Rad.Http2.Client.Trace

/-!
# Closed streams

Every stream that is closed leaves the open ones for good. Outside of RST_STREAM frames it is closed with an error just
when a reset is queued for it.
-/

namespace Rad.Http2

open Lib

/-- The reset that goes with a closed stream. -/
def Stream.resetOf (s : Stream) : Option (Nat × Error) := s.rstEc.map fun ec => (s.id, ec)

namespace Client

/-- Streams are closed, with a reset in the queue for each one that is closed with an error. -/
structure Resets (c c' : Client) : Prop where
  streamIds : c'.streamIds.Sublist c.streamIds
  closes : ∃ new, c'.closedStreams = c.closedStreams ++ new ∧
    c'.pendingRstStreams = c.pendingRstStreams ++ new.filterMap Stream.resetOf ∧
    ∀ s ∈ new, s.id ∈ c.streamIds ∧ s.id ∉ c'.streamIds

namespace Resets

variable {c c' c'' : Client}

theorem of_same (hids : c'.streamIds.Sublist c.streamIds) (hclosed : c'.closedStreams = c.closedStreams)
    (hrst : c'.pendingRstStreams = c.pendingRstStreams) : Resets c c' :=
  ⟨hids, [], by simpa using hclosed, by simpa using hrst, by simp⟩

theorem refl (c : Client) : Resets c c := .of_same (.refl _) rfl rfl

theorem trans (h : Resets c c') (h' : Resets c' c'') : Resets c c'' := by
  obtain ⟨new, hclosed, hrst, hids⟩ := h.closes
  obtain ⟨new', hclosed', hrst', hids'⟩ := h'.closes
  refine ⟨h'.streamIds.trans h.streamIds, new ++ new', ?_, ?_, fun s hmem => ?_⟩
  · rw [hclosed', hclosed, List.append_assoc]
  · rw [hrst', hrst, List.append_assoc, List.filterMap_append]
  · rcases List.mem_append.1 hmem with hold | hnew
    · exact ⟨(hids s hold).1, fun hopen => (hids s hold).2 (h'.streamIds.subset hopen)⟩
    · exact ⟨h.streamIds.subset (hids' s hnew).1, (hids' s hnew).2⟩

theorem of_eq (h : Resets c' c'') (hopen : c'.openStreams = c.openStreams) (hclosed : c'.closedStreams = c.closedStreams)
    (hrst : c'.pendingRstStreams = c.pendingRstStreams) : Resets c c'' :=
  Resets.trans (.of_same (by rw [Client.streamIds, hopen]; exact .refl _) hclosed hrst) h

end Resets

variable {c : Client}

theorem modifyStream_resets (c : Client) (id : Nat) {f : Stream → Stream} (hf : ∀ s, (f s).id = s.id) :
    Resets c (c.modifyStream id f) :=
  .of_same (by rw [modifyStream_streamIds c id hf]) rfl rfl

theorem closeOpenStream_closes (hids : c.streamIds.Nodup) (id : Nat) (ec : Option Error) (sendRst : Bool) :
    (c.closeOpenStream id ec sendRst).closedStreams = c.closedStreams ++
        ((c.findStream id).map fun s => { s with rstEc := ec, state := .closed }).toList ∧
      (c.closeOpenStream id ec sendRst).pendingRstStreams = c.pendingRstStreams ++
        ((c.findStream id).toList.filter fun _ => sendRst).map (fun s => (s.id, ec.getD .noError)) ∧
      id ∉ (c.closeOpenStream id ec sendRst).streamIds := by
  refine ⟨?_, ?_, findStream_eq_none_iff.1 (closeOpenStream_findStream hids id ec sendRst)⟩
  · unfold closeOpenStream
    cases c.findStream id <;> simp
  · unfold closeOpenStream
    cases c.findStream id with
    | none => simp
    | some s => cases sendRst <;> simp

/-- A stream is closed with an error and a reset, or without an error. -/
theorem closeOpenStream_resets (hids : c.streamIds.Nodup) (id : Nat) {ec : Option Error} {sendRst : Bool}
    (hsend : sendRst = ec.isSome) : Resets c (c.closeOpenStream id ec sendRst) := by
  obtain ⟨hclosed, hrst, hnone⟩ := closeOpenStream_closes hids id ec sendRst
  refine ⟨(closeOpenStream_untouched c id ec sendRst).streamIds, _, hclosed, ?_, fun s hmem => ?_⟩
  · rw [hrst, hsend]
    cases c.findStream id with
    | none => rfl
    | some s => cases ec <;> rfl
  · simp only [Option.mem_toList, Option.map_eq_some_iff] at hmem
    obtain ⟨s', hfind, rfl⟩ := hmem
    have hid : s'.id = id := findStream_id hfind
    have hmem : id ∈ c.streamIds := findStream_isSome_iff.1 (by simp [hfind])
    dsimp only
    rw [hid]
    exact ⟨hmem, hnone⟩

theorem finishBody_resets (hids : c.streamIds.Nodup) (s : Stream) : Resets c (c.finishBody s) := by
  unfold finishBody
  split
  · exact .refl c
  · have hmodify := modifyStream_resets c s.id (f := Stream.sendES) fun _ => rfl
    dsimp only
    split
    · exact hmodify.trans (closeOpenStream_resets (hmodify.streamIds.nodup hids) _ rfl)
    · exact hmodify

theorem foldl_resets {f : Client → Stream → Client} (hf : ∀ c s, c.streamIds.Nodup → Resets c (f c s)) (l : List Stream)
    (hids : c.streamIds.Nodup) : Resets c (l.foldl f c) := by
  induction l generalizing c with
  | nil => exact .refl c
  | cons s l ih =>
      have hone := hf c s hids
      exact hone.trans (ih (hone.streamIds.nodup hids))

theorem finishBodies_resets (hids : c.streamIds.Nodup) : Resets c c.finishBodies :=
  foldl_resets (fun _ s hids => finishBody_resets hids s) _ hids

theorem onStreamReceivedHeaders_resets (hids : c.streamIds.Nodup) (id : Nat) (flags : UInt8) :
    Resets c (c.onStreamReceivedHeaders id flags) := by
  have hrecv : Resets c (if hasFlag flags endStreamFlag && hasFlag flags endHeadersFlag then
      c.modifyStream id Stream.recvES else c) := by
    split
    · exact modifyStream_resets c id fun _ => rfl
    · exact .refl c
  unfold onStreamReceivedHeaders
  dsimp only
  split
  · split
    · exact hrecv.trans (closeOpenStream_resets (hrecv.streamIds.nodup hids) _ rfl)
    · exact hrecv
  · exact hrecv

/-! ## Payloads -/

theorem decodeHeadersBlock_resets (c : Client) (it : Stream) : Resets c (c.decodeHeadersBlock it).2.2 := by
  refine .of_same (decodeHeadersBlock_untouched c it).streamIds ?_ ?_ <;>
  · unfold decodeHeadersBlock
    split <;> rfl

theorem handleHeadersBlock_resets (hids : c.streamIds.Nodup) (flags : UInt8) (it : Stream) :
    Resets c (c.handleHeadersBlock flags it).1 := by
  have hdecoded := decodeHeadersBlock_resets c it
  unfold handleHeadersBlock
  rcases hdecode : c.decodeHeadersBlock it with ⟨res, err, d⟩
  rw [hdecode] at hdecoded
  have hrefuse : Resets c (d.refuseHeadersBlock it.id).1 :=
    hdecoded.trans (closeOpenStream_resets (hdecoded.streamIds.nodup hids) it.id rfl)
  have hmodify : ∀ f : Stream → Stream, (∀ s, (f s).id = s.id) → Resets c (d.modifyStream it.id f) :=
    fun f hf => hdecoded.trans (modifyStream_resets d it.id hf)
  cases err with
  | some err => exact hdecoded
  | none =>
      dsimp only
      split
      · exact hrefuse
      · split
        · exact hrefuse
        · split
          · exact hdecoded
          · split
            · split
              · exact hrefuse
              · split
                · exact hrefuse
                · split
                  · exact hrefuse
                  · exact hmodify _ fun _ => rfl
            · exact hmodify _ fun _ => rfl

theorem finishHeadersFrame_resets (hids : c.streamIds.Nodup) (header : FrameHeader) (it : Stream) :
    Resets c (c.finishHeadersFrame header it).1 := by
  have hfinish : ∀ d : Client, d.streamIds.Nodup →
      Resets d { d.onStreamReceivedHeaders it.id header.flags with parserStage := .header } :=
    fun d hids => (onStreamReceivedHeaders_resets hids it.id header.flags).trans (.of_same (.refl _) rfl rfl)
  unfold finishHeadersFrame
  dsimp only
  split
  · have hhandle := handleHeadersBlock_resets hids header.flags it
    rcases hblock : c.handleHeadersBlock header.flags it with ⟨d, res, ec⟩
    rw [hblock] at hhandle
    cases res with
    | false => exact hhandle
    | true => exact hhandle.trans (hfinish d (hhandle.streamIds.nodup hids))
  · exact hfinish c hids

theorem processDataFramePayload_resets (hids : c.streamIds.Nodup) (header : FrameHeader) (payload : PayloadStage) :
    Resets c (c.processDataFramePayload header payload).1 := by
  have hdata : ∀ (f : Stream → Stream) r, (∀ s, (f s).id = s.id) →
      Resets c ((c.modifyStream header.streamId f).reads r) :=
    fun f r hf => (modifyStream_resets c _ hf).trans (.of_same (.refl _) rfl rfl)
  have hend : ∀ (f : Stream → Stream) r, (∀ s, (f s).id = s.id) →
      Resets c { ((c.modifyStream header.streamId f).reads r).onStreamReceivedData header.streamId header.flags with
        parserStage := .header } :=
    fun f r hf => ((hdata f r hf).trans (onStreamReceivedHeaders_resets ((hdata f r hf).streamIds.nodup hids) _ _)).trans
      (.of_same (.refl _) rfl rfl)
  unfold processDataFramePayload
  split
  · exact .of_same (.refl _) rfl rfl
  · dsimp only
    split
    · exact .of_same (.refl _) rfl rfl
    · split
      · exact hdata _ _ fun _ => rfl
      · split
        · exact hdata _ _ fun _ => rfl
        · exact hend _ _ fun _ => rfl

theorem processHeadersFramePayload_resets (hids : c.streamIds.Nodup) (header : FrameHeader) (payload : PayloadStage) :
    Resets c (c.processHeadersFramePayload header payload).1 := by
  unfold processHeadersFramePayload
  split
  · exact .of_same (.refl _) rfl rfl
  · dsimp only
    split
    · exact .of_same (.refl _) rfl rfl
    · split
      · exact .of_same (.refl _) rfl rfl
      · split
        · exact .of_same (.refl _) rfl rfl
        · split
          · exact .of_same (.refl _) rfl rfl
          · refine .of_eq (finishHeadersFrame_resets ?_ _ _) rfl rfl rfl
            exact hids

theorem processContinuationFramePayload_resets (hids : c.streamIds.Nodup) (header : FrameHeader)
    (payload : PayloadStage) : Resets c (c.processContinuationFramePayload header payload).1 := by
  unfold processContinuationFramePayload
  split
  · exact .of_same (.refl _) rfl rfl
  · dsimp only
    split
    · refine .of_eq (finishHeadersFrame_resets ?_ _ _) rfl rfl rfl
      exact hids
    · exact .of_same (.refl _) rfl rfl

/-- Without a RST_STREAM frame, a payload closes streams with a reset for each error. -/
theorem processFramePayload_resets (hids : c.streamIds.Nodup) {header : FrameHeader} (payload : PayloadStage)
    (hrst : header.type ≠ .rstStream) : Resets c (c.processFramePayload header payload).1 := by
  unfold processFramePayload
  cases htype : header.type with
  | data => exact processDataFramePayload_resets hids header payload
  | headers => exact processHeadersFramePayload_resets hids header payload
  | continuation => exact processContinuationFramePayload_resets hids header payload
  | rstStream => exact absurd htype hrst
  | settings =>
      have hstep := processSettingsFramePayload_step c header payload
      have hkeeps := hstep.settingsKeeps
      exact .of_eq (.refl _) hkeeps.openStreams hkeeps.closedStreams hkeeps.pendingRstStreams
  | ping =>
      simp only [processPingFramePayload]
      split
      · exact .of_same (.refl _) rfl rfl
      · split
        · exact .of_same (.refl _) rfl rfl
        · split <;> exact .of_same (.refl _) rfl rfl
  | priority =>
      simp only [processPriorityFramePayload]
      split
      · exact .refl c
      · exact .of_same (.refl _) rfl rfl
  | goaway =>
      simp only [processGoawayFramePayload]
      split <;> exact .of_same (.refl _) rfl rfl
  | windowUpdate =>
      have hclose : ∀ d : Client, d.streamIds.Nodup → Resets d
          { d.closeOpenStream header.streamId (some .protocolError) true with parserStage := .header } :=
        fun d hids => (closeOpenStream_resets hids _ rfl).trans (.of_same (.refl _) rfl rfl)
      simp only [processWindowUpdateFramePayload]
      split
      · exact .of_same (.refl _) rfl rfl
      · split
        · split
          · refine .of_eq (hclose _ ?_) rfl rfl rfl
            exact hids
          · exact .of_same (.refl _) rfl rfl
        · exact .of_same (.refl _) rfl rfl
  | pushPromise => exact .refl c
  | unknown value => exact .refl c

theorem HeaderStep.resets {c' : Client} {header : FrameHeader} (h : HeaderStep c header c') (hids : c.streamIds.Nodup) :
    Resets c c' := by
  have hnote : ∀ it, Resets c (c.noteHeader it header) := fun it => modifyStream_resets c _ fun _ => rfl
  cases h with
  | passes htype => exact .refl c
  | late it hfind hremote htype => exact closeOpenStream_resets hids _ rfl
  | headers it hfind hremote htype hphase => exact (hnote it).trans (.of_same (.refl _) rfl rfl)
  | data it hfind hremote htype hphase hfits =>
      refine (hnote it).trans (.trans (modifyStream_resets _ _ ?_) (.of_same (.refl _) rfl rfl))
      exact fun _ => rfl
  | overlong it hfind hremote htype hphase hfits =>
      have hmodify : Resets c ((c.noteHeader it header).modifyStream header.streamId fun s => { s with
          receivedData := dataAfter it header }) :=
        (hnote it).trans (modifyStream_resets _ _ fun _ => rfl)
      exact hmodify.trans (closeOpenStream_resets (hmodify.streamIds.nodup hids) _ rfl)
  | other it hfind hremote hheaders hdata hphase => exact hnote it

theorem finishBody_pendingRstStreams (c : Client) (s : Stream) :
    (c.finishBody s).pendingRstStreams = c.pendingRstStreams := by
  have hclose : ∀ d : Client, (d.closeOpenStream s.id none false).pendingRstStreams = d.pendingRstStreams := by
    intro d
    unfold closeOpenStream
    split <;> rfl
  unfold finishBody
  split
  · rfl
  · dsimp only
    split
    · exact hclose _
    · rfl

theorem finishBodies_pendingRstStreams (c : Client) : c.finishBodies.pendingRstStreams = c.pendingRstStreams := by
  suffices hfold : ∀ (l : List Stream) (d : Client), (l.foldl finishBody d).pendingRstStreams = d.pendingRstStreams from
    hfold _ c
  intro l
  induction l with
  | nil => intro d; rfl
  | cons s l ih => intro d; rw [List.foldl_cons, ih, finishBody_pendingRstStreams]

/-! ## Passes -/

/-- Streams are closed. -/
structure Closes (c c' : Client) (new : List Stream) : Prop where
  streamIds : c'.streamIds.Sublist c.streamIds
  closedStreams : c'.closedStreams = c.closedStreams ++ new
  ids : ∀ s ∈ new, s.id ∈ c.streamIds ∧ s.id ∉ c'.streamIds

theorem Closes.none {c' : Client} (hids : c'.streamIds.Sublist c.streamIds)
    (hclosed : c'.closedStreams = c.closedStreams) : Closes c c' [] :=
  ⟨hids, by simpa using hclosed, by simp⟩

theorem Resets.exists_closes {c' : Client} (h : Resets c c') : ∃ new, Closes c c' new ∧
    c'.pendingRstStreams = c.pendingRstStreams ++ new.filterMap Stream.resetOf := by
  obtain ⟨new, hclosed, hrst, hids⟩ := h.closes
  exact ⟨new, ⟨h.streamIds, hclosed, hids⟩, hrst⟩

theorem processRstFramePayload_closes (hids : c.streamIds.Nodup) (header : FrameHeader) (payload : PayloadStage) :
    ∃ new, Closes c (c.processRstFramePayload header payload) new ∧
      (c.processRstFramePayload header payload).pendingRstStreams = c.pendingRstStreams := by
  unfold processRstFramePayload
  split
  · exact ⟨[], .none (.refl _) rfl, rfl⟩
  · dsimp only
    obtain ⟨hclosed, hrst, hnone⟩ := closeOpenStream_closes
      (c := { c with rbuf := c.rbuf.drop 4, parserStage := .header }) hids header.streamId
      (some (.ofCode (ofBigEndian (c.rbuf.take 4)))) false
    refine ⟨_, ⟨(closeOpenStream_untouched _ _ _ _).streamIds, hclosed, fun r hmem => ?_⟩, hrst.trans (by simp)⟩
    simp only [Option.mem_toList, Option.map_eq_some_iff] at hmem
    obtain ⟨s', hfind, rfl⟩ := hmem
    have hid : s'.id = header.streamId := findStream_id hfind
    dsimp only
    rw [hid]
    exact ⟨findStream_isSome_iff.1 (Option.isSome_of_eq_some hfind), hnone⟩

end Client

open Client

/-- A pass closes streams, with a reset for each error unless it reads a RST_STREAM frame. -/
theorem NextPass.resets {s t : ParseState} (hinv : Invariant s) (h : NextPass s t) :
    ∃ new, Closes s.client t.client new ∧ t.client.pendingRstStreams = s.client.pendingRstStreams ++
      if t.client.lastHeader.any (·.type = .rstStream) then [] else new.filterMap Stream.resetOf := by
  cases h with
  | header c' header hstage hlen heq hvalidate ht =>
      have hstep := validateFrameHeader_step (congrArg Prod.snd hvalidate)
      rw [hvalidate] at hstep
      obtain ⟨new, hcloses, hrst⟩ := (hstep.resets hinv.nodup).exists_closes
      subst ht
      refine ⟨new, ⟨hcloses.streamIds, hcloses.closedStreams, hcloses.ids⟩, hrst.trans (congrArg _ ?_)⟩
      -- the header of a RST_STREAM frame closes nothing
      have hnil : header.type = .rstStream → new = [] := by
        intro htype
        have hsame : c'.closedStreams = s.client.closedStreams := by
          cases hstep with
          | passes => rfl
          | late it hfind hremote hmay => simp [FrameHeader.mayBeSentToHalfClosedRemoteStream, htype] at hmay
          | headers it hfind hremote hheaders => rw [htype] at hheaders; cases hheaders
          | data it hfind hremote hdata => rw [htype] at hdata; cases hdata
          | overlong it hfind hremote hdata => rw [htype] at hdata; cases hdata
          | other => rfl
        have hlen := congrArg List.length (hcloses.closedStreams.symm.trans hsame)
        simpa using hlen
      have hlast : (c'.acceptHeader header).client.lastHeader = some (acceptedHeader c'.lastHeader header) := rfl
      rw [hlast, Option.any_some, acceptedHeader_type]
      by_cases htype : header.type = .rstStream
      · simp [hnil htype]
      · simp [htype]
  | payload payload hstage hmin hec ht =>
      obtain ⟨header, hheader, -⟩ := hinv.stage payload hstage
      subst ht
      rw [processFramePayload_lastHeader, hheader, Option.getD_some, Option.any_some]
      by_cases htype : header.type = .rstStream
      · obtain ⟨new, hcloses, hrst⟩ := processRstFramePayload_closes hinv.nodup header payload
        simp only [processFramePayload, htype, decide_true, if_true, List.append_nil]
        exact ⟨new, hcloses, hrst⟩
      · simp only [htype, decide_false, Bool.false_eq_true, if_false]
        exact (processFramePayload_resets hinv.nodup payload htype).exists_closes

/-! ## Steps -/

variable {s t : System} {a : Action} {out : List SentFrame}

theorem Action.perform_closedStreams (c : Client) {a : Action} (ha : a ≠ .finishBodies) :
    (a.perform c).1.closedStreams = c.closedStreams := by
  by_cases hquiet : a.isQuiet = true
  · exact congrArg Queues.closedStreams (Action.perform_queues c hquiet)
  · cases a with
    | finishBodies => exact absurd rfl ha
    | flush =>
        simp only [Action.perform, preparePendingSendQueue]
        split <;> rfl
    | maxHeadersSize n =>
        obtain ⟨sframe, heq⟩ := maxHeadersSize_eq c n
        rw [Action.perform, heq]
    | connect => rfl
    | ping => rfl
    | _ => exact absurd rfl hquiet

/-- Between the calls of `parse_frames` no stream is closed with an error, and resets leave the queue in a flush alone. -/
theorem Action.perform_closes {c : Client} (hids : c.streamIds.Nodup) (a : Action) :
    ∃ new, (a.perform c).1.closedStreams = c.closedStreams ++ new ∧
      (∀ r ∈ new, r.id ∈ c.streamIds ∧ r.id ∉ (a.perform c).1.streamIds) ∧ new.filterMap Stream.resetOf = [] ∧
      (a ≠ .flush → (a.perform c).1.pendingRstStreams = c.pendingRstStreams) := by
  by_cases hfinish : a = .finishBodies
  · subst hfinish
    obtain ⟨new, hcloses, hrst⟩ := (finishBodies_resets hids).exists_closes
    have hnil := hrst.symm.trans (finishBodies_pendingRstStreams c)
    exact ⟨new, hcloses.closedStreams, hcloses.ids, by simpa using hnil, fun _ => finishBodies_pendingRstStreams c⟩
  · refine ⟨[], by simpa using Action.perform_closedStreams c hfinish, by simp, rfl, fun hflush => ?_⟩
    by_cases hquiet : a.isQuiet = true
    · exact congrArg Queues.pendingRstStreams (Action.perform_queues c hquiet)
    · cases a with
      | finishBodies => exact absurd rfl hfinish
      | flush => exact absurd rfl hflush
      | maxHeadersSize n =>
          obtain ⟨sframe, heq⟩ := maxHeadersSize_eq c n
          rw [Action.perform, heq]
      | connect => rfl
      | ping => rfl
      | _ => exact absurd rfl hquiet

theorem SystemInvariant.idsGrow (h : SystemInvariant s) (hstep : s.step a = some (t, out)) :
    IdsGrow s.client t.client := by
  cases System.step_cases hstep with
  | next u ha hpass ht hout =>
      subst ht
      have hnext := (parsePass_next hpass).2
      obtain ⟨new, hcloses, -⟩ := hnext.resets h.parser
      exact .of_sublist hnext.keeps.lastClientId hcloses.streamIds
  | done c ha hdone ht hout =>
      subst ht
      obtain ⟨rbufExhausted, rfl⟩ := hdone.eq
      exact .of_sublist rfl (.refl _)
  | perform ha hparsing henabled ht hout =>
      subst ht
      exact (Action.perform_spared h.ids henabled).ids

/-- The streams that a step closes are not open behind it, and it queues a reset for each one that the client resets. -/
theorem SystemInvariant.closes (h : SystemInvariant s) (hstep : s.step a = some (t, out)) :
    (∀ r ∈ Step.closed ⟨s, a, out, t⟩, r.id ∈ s.client.streamIds ∧ r.id ∉ t.client.streamIds) ∧
      (a ≠ .flush → t.client.pendingRstStreams = s.client.pendingRstStreams ++ Step.resets ⟨s, a, out, t⟩) := by
  suffices hnew : ∃ new, t.client.closedStreams = s.client.closedStreams ++ new ∧
      (∀ r ∈ new, r.id ∈ s.client.streamIds ∧ r.id ∉ t.client.streamIds) ∧
      (a ≠ .flush → t.client.pendingRstStreams = s.client.pendingRstStreams ++
        if t.client.lastHeader.any (·.type = .rstStream) then [] else new.filterMap Stream.resetOf) by
    obtain ⟨new, hclosed, hids, hrst⟩ := hnew
    have heq : Step.closed ⟨s, a, out, t⟩ = new := by rw [Step.closed, hclosed, List.drop_left]
    rw [Step.resets, heq]
    exact ⟨hids, hrst⟩
  cases System.step_cases hstep with
  | next u ha hpass ht hout =>
      subst ht
      obtain ⟨new, hcloses, hrst⟩ := (parsePass_next hpass).2.resets h.parser
      exact ⟨new, hcloses.closedStreams, hcloses.ids, fun _ => hrst⟩
  | done c ha hdone ht hout =>
      subst ht
      obtain ⟨rbufExhausted, rfl⟩ := hdone.eq
      refine ⟨[], (List.append_nil _).symm, by simp, fun _ => ?_⟩
      rw [List.filterMap_nil, ite_self, List.append_nil]
      rfl
  | perform ha hparsing henabled ht hout =>
      subst ht
      obtain ⟨new, hclosed, hids, hnil, hrst⟩ := Action.perform_closes h.parser.nodup a
      exact ⟨new, hclosed, hids, fun hflush => by rw [hnil, ite_self, List.append_nil]; exact hrst hflush⟩

end Rad.Http2
