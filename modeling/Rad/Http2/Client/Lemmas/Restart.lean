import Rad.Http2.Client.System
import Rad.Lib.FirstMatch
import Mathlib.Data.List.InsertIdx

/-!
# Counters that are set before they are read

A stream waits for a header block with a number of CONTINUATION frames that the first frame of the block sets to zero,
and a stream in the queue has a window that is set when its request is sent. The client does the same whatever these
counters are: `forget` sets them to zero, and each function of the client gives the same with and without it.
-/

namespace Rad.Http2

open Hpack Http Lib

/-! ## Streams -/

namespace Stream

/-- The stream without the number of CONTINUATION frames, as long as a header block is awaited. -/
def forget (s : Stream) : Stream :=
  { s with receivedContinuations := if s.wantsHeaders then 0 else s.receivedContinuations }

/-- The stream in the queue: its window is set when the request is sent. -/
def forgetQueued (s : Stream) : Stream := { s.forget with windowSize := 0 }

theorem forget_comp_forget : forget ∘ forget = forget := by
  funext s
  simp only [Function.comp_apply, forget]
  split <;> rfl

/-- A change of another field. -/
theorem forget_receivedFinalRes (s : Stream) :
    Stream.forget { s.forget with receivedFinalRes := true } = Stream.forget { s with receivedFinalRes := true } :=
  congrArg (fun s : Stream => { s with receivedFinalRes := true }) (congrFun forget_comp_forget s)

theorem forgetQueued_comp_forgetQueued : forgetQueued ∘ forgetQueued = forgetQueued := by
  funext s
  simp only [Function.comp_apply, forgetQueued, forget]
  split <;> rfl

end Stream

namespace Client

/-- The client without the counters of its streams that are set before they are read. -/
def forget (c : Client) : Client :=
  { c with
    idleStreams := c.idleStreams.map Stream.forgetQueued
    openStreams := c.openStreams.map Stream.forget
    closedStreams := c.closedStreams.map Stream.forget }

variable {c d : Client} {id : Nat} {it : Stream} {header : FrameHeader} {payload : PayloadStage}

theorem forget_congr {f : Client → Client} (hf : ∀ c : Client, f c.forget = (f c).forget) (h : c.forget = d.forget) :
    (f c).forget = (f d).forget := by
  rw [← hf, h, hf]

/-! ## Open streams -/

theorem findStream_forget (c : Client) (id : Nat) : c.forget.findStream id = (c.findStream id).map Stream.forget :=
  List.find?_map ..

theorem findIdx_forget (c : Client) (id : Nat) :
    c.forget.openStreams.findIdx (·.id == id) = c.openStreams.findIdx (·.id == id) :=
  List.findIdx_map ..

theorem modifyStream_forget {f : Stream → Stream} (c : Client) (id : Nat) (hf : ∀ s : Stream, f s.forget = (f s).forget) :
    c.forget.modifyStream id f = (c.modifyStream id f).forget := by
  have hmodify (i : Nat) : (c.openStreams.map Stream.forget).modify i f = (c.openStreams.modify i f).map Stream.forget := by
    rw [← map_modify_map (b := fun s => s) (fun _ => rfl) hf, List.map_id']
  unfold modifyStream
  rw [findIdx_forget]
  simp only [forget, hmodify]

/-- The change may set the counter, or have a header block be awaited again. -/
theorem modifyStream_eq_forget {f : Stream → Stream} (c : Client) (id : Nat)
    (hf : ∀ s : Stream, (f s.forget).forget = (f s).forget) :
    (c.modifyStream id f).forget = (c.forget.modifyStream id f).forget := by
  have hmodify := map_modify_map (b := Stream.forget) (congrFun Stream.forget_comp_forget) hf c.openStreams
  unfold modifyStream
  rw [findIdx_forget]
  simp only [forget, hmodify, List.map_map, Stream.forget_comp_forget, Stream.forgetQueued_comp_forgetQueued]

theorem forget_forget (c : Client) : c.forget.forget = c.forget := by
  simp only [forget, List.map_map, Stream.forget_comp_forget, Stream.forgetQueued_comp_forgetQueued]

theorem closeOpenStream_forget (c : Client) (id : Nat) (ec : Option Error) (sendRst : Bool) :
    c.forget.closeOpenStream id ec sendRst = (c.closeOpenStream id ec sendRst).forget := by
  unfold closeOpenStream
  rw [findStream_forget, findIdx_forget]
  cases c.findStream id with
  | none => rfl
  | some s =>
      simp only [Option.map_some, forget, List.eraseIdx_map, List.map_append, List.map_singleton]
      rfl

/-- A stream that is closed is taken out. -/
abbrev closedBehind (c : Client) (id : Nat) : Client :=
  match c.findStream id with
  | some s => if s.isClosed then c.closeOpenStream id none false else c
  | none => c

theorem onStreamReceivedHeaders_forget (c : Client) (id : Nat) (flags : UInt8) :
    c.forget.onStreamReceivedHeaders id flags = (c.onStreamReceivedHeaders id flags).forget := by
  have hrecv (c : Client) : c.forget.modifyStream id Stream.recvES = (c.modifyStream id Stream.recvES).forget :=
    modifyStream_forget c id fun _ => rfl
  have hclosed (c : Client) : c.forget.closedBehind id = (c.closedBehind id).forget := by
    unfold closedBehind
    rw [findStream_forget, closeOpenStream_forget]
    cases c.findStream id with
    | none => rfl
    | some s => exact (apply_ite forget ..).symm
  unfold onStreamReceivedHeaders
  split
  · rw [hrecv]
    exact hclosed _
  · exact hclosed c

/-! ## Frame headers -/

theorem validateData_forget (c : Client) (it : Stream) (header : FrameHeader) :
    c.forget.validateData it.forget header = (c.validateData it header).forget := by
  unfold validateData
  dsimp only
  rw [modifyStream_forget, closeOpenStream_forget, modifyStream_forget, apply_ite forget, apply_ite forget]
  · rfl
  · exact fun _ => rfl
  · exact fun _ => rfl

/-- While a header block is awaited, only the frames that set the counter to zero are accepted. -/
theorem nextContinuations_forget (h : it.wantsHeaders = true → header.type ≠ .continuation) :
    nextContinuations it.forget header = nextContinuations it header := by
  unfold nextContinuations
  split
  · rename_i htype
    have hwants : it.wantsHeaders = false := by
      by_contra hwants
      exact h (by simpa using hwants) htype
    simp [Stream.forget, hwants]
  · rfl

theorem noteHeader_eq_forget (c : Client) (h : it.wantsHeaders = true → header.type ≠ .continuation) :
    (c.noteHeader it header).forget = (c.forget.noteHeader it.forget header).forget := by
  unfold noteHeader
  rw [nextContinuations_forget h]
  exact modifyStream_eq_forget c _ fun _ => rfl

/-- What is left of a result when the client forgets. -/
def forgetFst {β : Type*} (r : Client × β) : Client × β := (r.1.forget, r.2)

theorem forgetFst_ite {β : Type*} (p : Prop) [Decidable p] (r r' : Client × β) :
    forgetFst (if p then r else r') = if p then forgetFst r else forgetFst r' :=
  apply_ite ..

theorem forgetFst_eq {β : Type*} (c : Client) (b : β) : forgetFst (c, b) = forgetFst (c.forget, b) :=
  congrArg (·, b) (forget_forget c).symm

theorem validateOpenStream_eq_forget (c : Client) (it : Stream) (header : FrameHeader) :
    forgetFst (c.validateOpenStream it header) = forgetFst (c.forget.validateOpenStream it.forget header) := by
  unfold validateOpenStream
  simp only [forgetFst_ite]
  refine ite_congr rfl (fun _ => forgetFst_eq c _) fun hwants => ite_congr rfl (fun _ => forgetFst_eq c _) fun _ =>
    ite_congr rfl (fun _ => forgetFst_eq c _) fun _ => ?_
  have hnote : it.wantsHeaders = true → header.type ≠ .continuation := by
    intro h htype
    simp [show it.forget.wantsHeaders = true from h, htype] at hwants
  have hclient := noteHeader_eq_forget c hnote
  have hdata : ((c.noteHeader it header).validateData it header).forget =
      ((c.forget.noteHeader it.forget header).validateData it.forget header).forget :=
    forget_congr (f := fun c => c.validateData it header) (fun c => validateData_forget c it header) hclient
  refine ite_congr (congrArg (· > _) (nextContinuations_forget hnote).symm) (fun _ => congrArg (·, _) hclient) fun _ =>
    ite_congr rfl (fun _ => congrArg (·, _) ?_) fun _ =>
      ite_congr rfl (fun _ => congrArg (·, _) hdata) fun _ => congrArg (·, _) hclient
  exact forget_congr (f := fun c => { c with hpackReadBuff := [] }) (fun _ => rfl) hclient

theorem validateFrameHeader_eq_forget (c : Client) (header : FrameHeader) :
    forgetFst (c.validateFrameHeader header) = forgetFst (c.forget.validateFrameHeader header) := by
  unfold validateFrameHeader
  rw [findStream_forget, closeOpenStream_forget]
  simp only [forgetFst_ite]
  refine ite_congr rfl (fun _ => forgetFst_eq c _) fun _ => ite_congr rfl (fun _ => forgetFst_eq c _) fun _ => ?_
  cases c.findStream header.streamId with
  | none =>
      simp only [Option.map_none, forgetFst_ite]
      exact ite_congr rfl (fun _ => forgetFst_eq c _) fun _ => forgetFst_eq c _
  | some it =>
      simp only [Option.map_some, forgetFst_ite]
      exact ite_congr rfl (fun _ => ite_congr rfl (fun _ => forgetFst_eq c _) fun _ => forgetFst_eq _ _)
        fun _ => validateOpenStream_eq_forget c it header

/-! ## Payloads -/

theorem processDataFramePayload_forget (c : Client) (header : FrameHeader) (payload : PayloadStage) :
    c.forget.processDataFramePayload header payload = forgetFst (c.processDataFramePayload header payload) := by
  unfold processDataFramePayload
  rw [findStream_forget]
  cases c.findStream header.streamId with
  | none => rfl
  | some it =>
      simp only [Option.map_some, forgetFst_ite]
      refine ite_congr rfl (fun _ => rfl) fun _ => ?_
      rw [modifyStream_forget]
      · refine ite_congr rfl (fun _ => rfl) fun _ => ite_congr rfl (fun _ => rfl) fun _ => congrArg (·, _) ?_
        exact congrArg (fun c : Client => { c with parserStage := .header }) (onStreamReceivedHeaders_forget
          ((c.modifyStream header.streamId _).reads _) header.streamId (header.flags ||| endHeadersFlag))
      · exact fun _ => rfl

/-! ## Header blocks -/

theorem decodeHeadersBlock_forget (c : Client) (it : Stream) :
    c.forget.decodeHeadersBlock it.forget =
      ((c.decodeHeadersBlock it).1, (c.decodeHeadersBlock it).2.1, (c.decodeHeadersBlock it).2.2.forget) := by
  unfold decodeHeadersBlock
  dsimp only
  rw [modifyStream_forget]
  · cases htrailers : it.receivedTrailers with
    | true => simp [Stream.forget, htrailers, forget]
    | false => simp [Stream.forget, htrailers, forget]
  · exact fun _ => rfl

theorem handleHeadersBlock_eq_forget (c : Client) (flags : UInt8) (it : Stream) :
    forgetFst (c.handleHeadersBlock flags it) = forgetFst (c.forget.handleHeadersBlock flags it.forget) := by
  unfold handleHeadersBlock
  rw [decodeHeadersBlock_forget]
  obtain ⟨res, ec, d⟩ := c.decodeHeadersBlock it
  have hrefuse : forgetFst (d.refuseHeadersBlock it.id) = forgetFst (d.forget.refuseHeadersBlock it.forget.id) :=
    congrArg (·, _) ((forget_forget _).symm.trans (congrArg forget (closeOpenStream_forget d it.id _ true).symm))
  cases ec with
  | some ec => exact forgetFst_eq _ _
  | none =>
      simp only [forgetFst_ite]
      exact ite_congr rfl (fun _ => hrefuse) fun _ => ite_congr rfl (fun _ => hrefuse) fun _ =>
        ite_congr rfl (fun _ => forgetFst_eq _ _) fun _ => ite_congr rfl
          (fun _ => ite_congr rfl (fun _ => hrefuse) fun _ => ite_congr rfl (fun _ => hrefuse) fun _ =>
            ite_congr rfl (fun _ => hrefuse) fun _ => congrArg (·, _) (modifyStream_eq_forget d _ fun _ => rfl))
          fun _ => congrArg (·, _) (modifyStream_eq_forget d _ Stream.forget_receivedFinalRes)

theorem finishHeadersFrame_eq_forget (c : Client) (header : FrameHeader) (it : Stream) :
    forgetFst (c.finishHeadersFrame header it) = forgetFst (c.forget.finishHeadersFrame header it.forget) := by
  have hfinish (c : Client) : { c.forget.onStreamReceivedHeaders it.id header.flags with parserStage := .header } =
      Client.forget { c.onStreamReceivedHeaders it.id header.flags with parserStage := .header } :=
    congrArg (fun c : Client => { c with parserStage := .header }) (onStreamReceivedHeaders_forget c it.id header.flags)
  have hcongr {c d : Client} (h : c.forget = d.forget) :
      Client.forget { c.onStreamReceivedHeaders it.id header.flags with parserStage := .header } =
        Client.forget { d.onStreamReceivedHeaders it.id header.flags with parserStage := .header } :=
    forget_congr (f := fun c => { c.onStreamReceivedHeaders it.id header.flags with parserStage := .header }) hfinish h
  unfold finishHeadersFrame
  simp only [forgetFst_ite]
  refine ite_congr rfl (fun _ => ?_) fun _ => congrArg (·, _) (hcongr (forget_forget c).symm)
  have hhandle := handleHeadersBlock_eq_forget c header.flags it
  generalize c.handleHeadersBlock header.flags it = r at hhandle ⊢
  generalize c.forget.handleHeadersBlock header.flags it.forget = r' at hhandle ⊢
  obtain ⟨d, ok, ec⟩ := r
  obtain ⟨d', ok', ec'⟩ := r'
  obtain ⟨hd, hok⟩ := Prod.mk.inj hhandle
  cases hok
  cases ok with
  | false => exact congrArg (·, _) hd
  | true => exact congrArg (·, _) (hcongr hd)

theorem processHeadersFramePayload_eq_forget (c : Client) (header : FrameHeader) (payload : PayloadStage) :
    forgetFst (c.processHeadersFramePayload header payload) =
      forgetFst (c.forget.processHeadersFramePayload header payload) := by
  unfold processHeadersFramePayload
  rw [findStream_forget]
  cases c.findStream header.streamId with
  | none => exact forgetFst_eq _ _
  | some it =>
      simp only [Option.map_some, forgetFst_ite]
      exact ite_congr rfl (fun _ => forgetFst_eq _ _) fun _ => ite_congr rfl (fun _ => forgetFst_eq _ _) fun _ =>
        ite_congr rfl (fun _ => forgetFst_eq _ _) fun _ => ite_congr rfl (fun _ => forgetFst_eq _ _) fun _ =>
          finishHeadersFrame_eq_forget _ _ _

theorem processContinuationFramePayload_eq_forget (c : Client) (header : FrameHeader) (payload : PayloadStage) :
    forgetFst (c.processContinuationFramePayload header payload) =
      forgetFst (c.forget.processContinuationFramePayload header payload) := by
  unfold processContinuationFramePayload
  rw [findStream_forget]
  cases c.findStream header.streamId with
  | none => exact forgetFst_eq _ _
  | some it =>
      simp only [Option.map_some, forgetFst_ite]
      exact ite_congr rfl (fun _ => finishHeadersFrame_eq_forget _ _ _) fun _ => forgetFst_eq _ _

/-! ## The other payloads -/

theorem onReceivedSetting_forget (c : Client) (svalue : SettingValue) :
    c.forget.onReceivedSetting svalue = forgetFst (c.onReceivedSetting svalue) := by
  unfold onReceivedSetting
  split
  · rfl
  · rfl
  · rfl
  · rfl
  · rw [forgetFst_ite]
    rfl
  · rfl
  · rfl

theorem readSettings_forget (c : Client) (payload : PayloadStage) :
    c.forget.readSettings payload = forgetFst (c.readSettings payload) := by
  have hset (c : Client) : { c.forget with rbuf := c.forget.rbuf.drop SettingValue.neededWriteSize }.onReceivedSetting
      (.ofBuffer (c.forget.rbuf.take SettingValue.neededWriteSize)) =
        forgetFst ({ c with rbuf := c.rbuf.drop SettingValue.neededWriteSize }.onReceivedSetting
          (.ofBuffer (c.rbuf.take SettingValue.neededWriteSize))) :=
    onReceivedSetting_forget { c with rbuf := c.rbuf.drop SettingValue.neededWriteSize } _
  fun_induction c.readSettings payload with
  | case1 c payload hlt hshort =>
      rw [readSettings, if_pos hlt, if_pos (show c.forget.rbuf.length < SettingValue.neededWriteSize from hshort)]
      rfl
  | case2 c payload hlt hlong svalue payload' c' ec heq =>
      rw [readSettings, if_pos hlt, if_neg (show ¬c.forget.rbuf.length < SettingValue.neededWriteSize from hlong)]
      dsimp only
      rw [hset, heq]
      rfl
  | case3 c payload hlt hlong svalue payload' c' heq ih =>
      rw [readSettings, if_pos hlt, if_neg (show ¬c.forget.rbuf.length < SettingValue.neededWriteSize from hlong)]
      dsimp only
      rw [hset, heq]
      exact ih
  | case4 c payload hge =>
      rw [readSettings, if_neg hge]
      rfl

theorem applyLocalSettings_forget (c : Client) (sframe : SettingsFrame) :
    (c.applyLocalSettings sframe).forget = c.forget.applyLocalSettings sframe := by
  have hone (c : Client) (svalue : SettingValue) : (c.applyLocalSetting svalue).forget = c.forget.applyLocalSetting svalue := by
    unfold applyLocalSetting
    split <;> rfl
  unfold applyLocalSettings
  induction sframe generalizing c with
  | nil => rfl
  | cons svalue sframe ih => rw [List.foldl_cons, List.foldl_cons, ← hone, ih]

theorem processSettingsFramePayload_forget (c : Client) (header : FrameHeader) (payload : PayloadStage) :
    c.forget.processSettingsFramePayload header payload = forgetFst (c.processSettingsFramePayload header payload) := by
  unfold processSettingsFramePayload
  rw [readSettings_forget]
  obtain ⟨d, payload', r⟩ := c.readSettings payload
  cases r with
  | exhausted => rfl
  | error ec => rfl
  | complete =>
      simp only [forgetFst_ite]
      refine ite_congr rfl (fun _ => rfl) fun _ => ?_
      rw [show d.forget.pendingAckSettings = d.pendingAckSettings from rfl]
      cases d.pendingAckSettings with
      | nil => rfl
      | cons oldest rest => exact Eq.symm (congrArg (·, none) (applyLocalSettings_forget _ oldest))

theorem processPriorityFramePayload_forget (c : Client) (payload : PayloadStage) :
    c.forget.processPriorityFramePayload payload = (c.processPriorityFramePayload payload).forget := by
  unfold processPriorityFramePayload
  rw [apply_ite forget]
  rfl

theorem processPingFramePayload_forget (c : Client) (header : FrameHeader) (payload : PayloadStage) :
    c.forget.processPingFramePayload header payload = (c.processPingFramePayload header payload).forget := by
  unfold processPingFramePayload
  simp only [apply_ite forget]
  rfl

theorem processRstFramePayload_forget (c : Client) (header : FrameHeader) (payload : PayloadStage) :
    c.forget.processRstFramePayload header payload = (c.processRstFramePayload header payload).forget := by
  unfold processRstFramePayload
  simp only [apply_ite forget, ← closeOpenStream_forget]
  rfl

theorem processGoawayFramePayload_forget (c : Client) (payload : PayloadStage) :
    c.forget.processGoawayFramePayload payload = forgetFst (c.processGoawayFramePayload payload) := by
  unfold processGoawayFramePayload
  rw [forgetFst_ite]
  rfl

theorem processWindowUpdateFramePayload_forget (c : Client) (header : FrameHeader) (payload : PayloadStage) :
    c.forget.processWindowUpdateFramePayload header payload =
      forgetFst (c.processWindowUpdateFramePayload header payload) := by
  unfold processWindowUpdateFramePayload
  simp only [forgetFst_ite]
  have hclose := closeOpenStream_forget { c with rbuf := c.rbuf.drop 4 } header.streamId (some .protocolError) true
  exact ite_congr rfl (fun _ => rfl) fun _ => ite_congr rfl (fun _ => ite_congr rfl
    (fun _ => congrArg (fun c : Client => ({ c with parserStage := .header }, none)) hclose) fun _ => rfl) fun _ => rfl

/-! ## The loop -/

theorem forgetFst_of_eq {β : Type*} {r r' : Client × β} (h : r' = forgetFst r) : forgetFst r = forgetFst r' := by
  rw [h]
  exact congrArg (·, _) (forget_forget r.1).symm

theorem processFramePayload_eq_forget (c : Client) (header : FrameHeader) (payload : PayloadStage) :
    forgetFst (c.processFramePayload header payload) = forgetFst (c.forget.processFramePayload header payload) := by
  unfold processFramePayload
  split
  · exact forgetFst_of_eq (processDataFramePayload_forget c header payload)
  · exact processHeadersFramePayload_eq_forget c header payload
  · exact congrArg (·, _) (by rw [processPriorityFramePayload_forget, forget_forget])
  · exact congrArg (·, _) (by rw [processRstFramePayload_forget, forget_forget])
  · exact forgetFst_of_eq (processSettingsFramePayload_forget c header payload)
  · exact forgetFst_eq c _
  · exact congrArg (·, _) (by rw [processPingFramePayload_forget, forget_forget])
  · exact forgetFst_of_eq (processGoawayFramePayload_forget c payload)
  · exact forgetFst_of_eq (processWindowUpdateFramePayload_forget c header payload)
  · exact processContinuationFramePayload_eq_forget c header payload
  · exact forgetFst_eq c _

/-- What is left of a pass when the client forgets. -/
def forgetPass : Pass ParseState (Client × Option Error) → Pass ParseState (Client × Option Error)
  | .next s => .next { s with client := s.client.forget }
  | .done r => .done (forgetFst r)

theorem forgetPass_ite (p : Prop) [Decidable p] (r r' : Pass ParseState (Client × Option Error)) :
    forgetPass (if p then r else r') = if p then forgetPass r else forgetPass r' :=
  apply_ite ..

/-- The pass behind a frame header that is checked. -/
theorem afterHeader_eq_forget (r r' : Client × Option Error) (header : FrameHeader) : forgetFst r = forgetFst r' →
    forgetPass (match r with
      | (c, some ec) => .done (c, some ec)
      | (c, none) => .next (c.acceptHeader header)) =
    forgetPass (match r' with
      | (c, some ec) => .done (c, some ec)
      | (c, none) => .next (c.acceptHeader header)) := by
  intro h
  rcases r with ⟨c, _ | ec⟩ <;> rcases r' with ⟨c', _ | ec'⟩
  · have hforget : c.forget = c'.forget := congrArg Prod.fst h
    have haccept := forget_congr (f := fun c => (c.acceptHeader header).client) (fun _ => rfl) hforget
    have hzero := congrArg (fun d : Client => (d.acceptHeader header).hasZeroPayload) hforget
    exact congrArg Pass.next (congr (congrArg ParseState.mk haccept) hzero)
  · cases congrArg Prod.snd h
  · cases congrArg Prod.snd h
  · exact congrArg Pass.done h

theorem parseHeader_eq_forget (c : Client) : forgetPass c.parseHeader = forgetPass c.forget.parseHeader := by
  unfold parseHeader
  simp only [forgetPass_ite]
  exact ite_congr rfl (fun _ => congrArg Pass.done (forgetFst_eq _ _)) fun _ => afterHeader_eq_forget _ _ _
    (validateFrameHeader_eq_forget { c with rbuf := c.rbuf.drop FrameHeader.neededWriteSize } _)

theorem parsePayload_eq_forget (c : Client) (header : FrameHeader) (payload : PayloadStage) :
    forgetPass (c.parsePayload header payload) = forgetPass (c.forget.parsePayload header payload) := by
  unfold parsePayload
  simp only [forgetPass_ite]
  refine ite_congr rfl (fun _ => congrArg Pass.done (forgetFst_eq _ _)) fun _ => ?_
  have hpayload := processFramePayload_eq_forget c header payload
  obtain ⟨hclient, hec⟩ := Prod.mk.inj hpayload
  exact ite_congr (congrArg (failed · = true) hec) (fun _ => congrArg Pass.done hpayload) fun _ =>
    congrArg (fun c : Client => Pass.next (ParseState.mk c false)) hclient

end Client

theorem parsePass_eq_forget (s : ParseState) :
    Client.forgetPass (parsePass s) = Client.forgetPass (parsePass { s with client := s.client.forget }) := by
  unfold parsePass
  simp only [Client.forgetPass_ite]
  refine ite_congr rfl (fun _ => congrArg Pass.done (Client.forgetFst_eq _ _)) fun _ => ?_
  rw [show s.client.forget.parserStage = s.client.parserStage from rfl]
  cases s.client.parserStage with
  | header => exact s.client.parseHeader_eq_forget
  | payload payload => exact s.client.parsePayload_eq_forget _ payload

/-! ## Steps between the passes -/

namespace Client

theorem preparePendingSendQueue_forget (c : Client) :
    c.forget.preparePendingSendQueue = forgetFst c.preparePendingSendQueue := by
  have hupdates : streamWindowUpdates c.forget.openStreams = streamWindowUpdates c.openStreams := by
    unfold streamWindowUpdates
    simp only [forget, List.filter_map, List.map_map]
    rfl
  have hwindows : (c.openStreams.map Stream.forget).map
      (fun s => if s.wantsWindow then { s with windowSize := defaultClientWindowSize } else s) =
      (c.openStreams.map fun s =>
        if s.wantsWindow then { s with windowSize := defaultClientWindowSize } else s).map Stream.forget := by
    rw [List.map_map, List.map_map]
    refine List.map_congr_left fun s _ => ?_
    rw [Function.comp_apply, Function.comp_apply, apply_ite Stream.forget]
    rfl
  unfold preparePendingSendQueue
  rw [hupdates, show c.forget.toSendGoawayEc = c.toSendGoawayEc from rfl,
    show c.forget.openStreams = c.openStreams.map Stream.forget from rfl, hwindows]
  cases c.toSendGoawayEc <;> rfl

theorem openedStream_forget (s : Stream) (id : Nat) (windowSize : Int) :
    openedStream s.forgetQueued id windowSize = (openedStream s id windowSize).forget := by
  unfold openedStream
  dsimp only
  rw [apply_ite Stream.forget]
  rfl

theorem makeNewStreamId_forget (c : Client) :
    c.forget.makeNewStreamId = (c.makeNewStreamId.1, c.makeNewStreamId.2.forget) := by
  unfold makeNewStreamId
  rw [show c.forget.lastClientId = c.lastClientId from rfl]
  split
  · rfl
  · dsimp only
    split <;> rfl

theorem sendOneStreamRequest_forget (c : Client) :
    c.forget.sendOneStreamRequest = forgetFst c.sendOneStreamRequest := by
  unfold sendOneStreamRequest
  rw [show c.forget.idleStreams = c.idleStreams.map Stream.forgetQueued from rfl, makeNewStreamId_forget]
  cases c.idleStreams with
  | nil => rfl
  | cons s idleStreams =>
      obtain ⟨newId, d⟩ := c.makeNewStreamId
      rw [List.map_cons]
      dsimp only
      rw [forgetFst_ite, openedStream_forget]
      refine ite_congr rfl (fun _ => rfl) fun _ => ?_
      simp only [forgetFst, forget, List.map_append, List.map_singleton]
      rfl

theorem collectSweep_forget (maxChunkSize : Nat) (streams : List Stream) (totalSize availableFrames : Nat) :
    collectSweep maxChunkSize (streams.map Stream.forget) totalSize availableFrames =
      { collectSweep maxChunkSize streams totalSize availableFrames with
        streams := (collectSweep maxChunkSize streams totalSize availableFrames).streams.map Stream.forget } := by
  induction streams generalizing totalSize availableFrames with
  | nil => rfl
  | cons s rest ih =>
      rw [List.map_cons, collectSweep, collectSweep, show s.forget.hasBody = s.hasBody from rfl]
      cases s.hasBody with
      | false =>
          simp only [Bool.not_false, if_true]
          rw [ih]
          rfl
      | true =>
          simp only [Bool.not_true, Bool.false_eq_true, if_false]
          rw [ih, show s.forget.body = s.body from rfl]
          split <;> rfl

theorem collectLoop_forget (maxChunkSize : Nat) (streams : List Stream) (totalSize availableFrames : Nat) :
    collectLoop maxChunkSize (streams.map Stream.forget) totalSize availableFrames =
      { collectLoop maxChunkSize streams totalSize availableFrames with
        streams := (collectLoop maxChunkSize streams totalSize availableFrames).streams.map Stream.forget } := by
  fun_induction collectLoop maxChunkSize streams totalSize availableFrames with
  | case1 streams totalSize availableFrames h r hcollected =>
      rw [collectLoop, dif_pos h, collectSweep_forget, dif_pos hcollected]
  | case2 streams totalSize availableFrames h r hcollected rest ih =>
      rw [collectLoop, dif_pos h, collectSweep_forget, dif_neg hcollected]
      dsimp only
      rw [ih]
  | case3 streams totalSize availableFrames h => rw [collectLoop, dif_neg h]

theorem collectDataFrames_forget (c : Client) : c.forget.collectDataFrames = forgetFst c.collectDataFrames := by
  unfold collectDataFrames
  rw [show c.forget.openStreams = c.openStreams.map Stream.forget from rfl, collectLoop_forget]
  rfl

theorem finishBody_forget (c : Client) (s : Stream) : c.forget.finishBody s.forget = (c.finishBody s).forget := by
  unfold finishBody
  rw [apply_ite forget]
  refine ite_congr rfl (fun _ => rfl) fun _ => ?_
  dsimp only
  rw [apply_ite forget, modifyStream_forget]
  · refine ite_congr rfl (fun _ => ?_) fun _ => rfl
    exact closeOpenStream_forget _ _ _ _
  · exact fun _ => rfl

theorem finishBodies_forget (c : Client) : c.forget.finishBodies = c.finishBodies.forget := by
  have hfold (streams : List Stream) (c : Client) :
      (streams.map Stream.forget).foldl finishBody c.forget = (streams.foldl finishBody c).forget := by
    induction streams generalizing c with
    | nil => rfl
    | cons s streams ih => rw [List.map_cons, List.foldl_cons, List.foldl_cons, finishBody_forget, ih]
  exact hfold c.openStreams c

theorem updateSettings_forget (c : Client) (sframe : SettingsFrame) :
    c.forget.updateSettings sframe = (c.updateSettings sframe).forget := by
  unfold updateSettings
  simp only [apply_ite forget]
  refine ite_congr rfl (fun _ => rfl) fun _ => ite_congr rfl (fun _ => rfl) fun _ => ite_congr rfl (fun _ => rfl) fun _ => ?_
  rw [show c.forget.pendingSendSettings = c.pendingSendSettings from rfl]
  cases c.pendingSendSettings <;> rfl

theorem maxHeadersSize_forget (c : Client) (n : Nat) : c.forget.maxHeadersSize n = (c.maxHeadersSize n).forget := by
  unfold maxHeadersSize
  rw [updateSettings_forget, apply_ite forget]
  rfl

theorem abandon_forget (c : Client) (id : Nat) : c.forget.abandon id = (c.abandon id).forget := by
  unfold abandon
  rw [findIdx_forget]
  simp only [forget, List.eraseIdx_map]

theorem asyncClose_forget (c : Client) (ec : Error) : c.forget.asyncClose ec = (c.asyncClose ec).forget := by
  unfold asyncClose
  rw [apply_ite forget]
  rfl

end Client

/-- The streams that a request queues are the only ones that a step gets from outside. -/
theorem Action.perform_eq_forget (c : Client) (a : Action) :
    Client.forgetFst (a.perform c) = Client.forgetFst (a.perform c.forget) := by
  cases a with
  | connect => exact Client.forgetFst_eq _ _
  | read chunk => exact Client.forgetFst_eq _ _
  | pass => exact Client.forgetFst_eq _ _
  | flush => exact Client.forgetFst_of_eq c.preparePendingSendQueue_forget
  | sendRequest =>
      unfold perform
      rw [c.sendOneStreamRequest_forget]
      exact Client.forgetFst_eq _ _
  | sendBodies =>
      unfold perform
      rw [c.collectDataFrames_forget]
      exact Client.forgetFst_eq _ _
  | finishBodies => exact Client.forgetFst_of_eq (congrArg (·, []) c.finishBodies_forget)
  | request s =>
      unfold perform
      simp only [Client.forgetFst, Client.forget, List.map_append, List.map_map, Stream.forget_comp_forget,
        Stream.forgetQueued_comp_forgetQueued]
  | abandonIdle i =>
      unfold perform
      simp only [Client.forgetFst, Client.forget, List.eraseIdx_map, List.map_map, Stream.forget_comp_forget,
        Stream.forgetQueued_comp_forgetQueued]
  | abandon id => exact Client.forgetFst_of_eq (congrArg (·, []) (c.abandon_forget id))
  | ping => exact Client.forgetFst_eq _ _
  | maxHeadersSize n => exact Client.forgetFst_of_eq (congrArg (·, []) (c.maxHeadersSize_forget n))
  | maxBodySize n => exact Client.forgetFst_eq _ _
  | maxContinuationFrames n => exact Client.forgetFst_eq _ _
  | asyncClose ec => exact Client.forgetFst_of_eq (congrArg (·, []) (c.asyncClose_forget ec))
  | stop => exact Client.forgetFst_eq _ _

/-! ## Runs -/

namespace System

def forget (s : System) : System := { s with client := s.client.forget }

theorem enabled_forget (s : System) (a : Action) : a.enabled s.forget = a.enabled s := by
  cases a with
  | sendRequest =>
      have hempty : s.forget.client.sendQueueEmpty = s.client.sendQueueEmpty := by
        unfold Client.sendQueueEmpty
        simp only [forget, Client.forget, List.all_map]
        rfl
      have hopen : s.forget.client.canOpenNewStreams = s.client.canOpenNewStreams := by
        unfold Client.canOpenNewStreams
        simp only [forget, Client.forget, List.isEmpty_map, List.length_map]
      unfold Action.enabled
      rw [hempty, hopen]
      rfl
  | abandon id =>
      have hids : s.forget.client.streamIds = s.client.streamIds := List.map_map ..
      unfold Action.enabled
      rw [hids]
  | _ => rfl

/-- What is left of a step when the client forgets. -/
def forgetStep (r : System × List SentFrame) : System × List SentFrame := (r.1.forget, r.2)

theorem passStep_eq_forget (s : System) : s.passStep.map forget = s.forget.passStep.map forget := by
  have hpass := parsePass_eq_forget s.parseState
  unfold passStep
  rw [show s.forget.parseState = { s.parseState with client := s.parseState.client.forget } from rfl]
  generalize parsePass s.parseState = p at hpass ⊢
  generalize parsePass { s.parseState with client := s.parseState.client.forget } = q at hpass ⊢
  cases p with
  | next t =>
      cases q with
      | next u =>
          have hstate := Pass.next.inj hpass
          exact congrArg (fun t : ParseState => some { s with client := t.client, parsing := some t.hasZeroPayload }) hstate
      | done r => cases hpass
  | done r =>
      cases q with
      | next u => cases hpass
      | done r' =>
          have hresult := Pass.done.inj hpass
          dsimp only
          rw [apply_ite (Option.map forget), apply_ite (Option.map forget)]
          exact congrArg (fun r : Client × Option Error =>
            if failed r.2 then none else some { s with client := r.1, parsing := none }) hresult

theorem step_eq_forget (s : System) (a : Action) : (s.step a).map forgetStep = (s.forget.step a).map forgetStep := by
  unfold step
  rw [enabled_forget]
  simp only [apply_ite (Option.map forgetStep)]
  refine ite_congr rfl (fun _ => rfl) fun _ => ite_congr rfl (fun _ => ?_) fun _ => ite_congr rfl (fun _ => rfl) fun _ => ?_
  · have hpass := congrArg (Option.map fun t => (t, ([] : List SentFrame))) s.passStep_eq_forget
    rw [Option.map_map, Option.map_map] at hpass ⊢
    exact hpass
  · exact congrArg (fun r : Client × List SentFrame =>
      some (({ s with client := r.1, connected := s.connected || a = .connect } : System), r.2))
      (Action.perform_eq_forget s.client a)

end System

end Rad.Http2
