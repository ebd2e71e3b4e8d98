import Rad.Http2.Client.Lemmas.Streams

/-!
# The payloads of frames with headers and data

What one pass of `parse_frames` does in the payload stage of a HEADERS, DATA or CONTINUATION frame.
-/

namespace Rad.Http2

open Lib

/-! ## HEADERS and DATA in terms of `readFrame` -/

theorem readPaddingLength_data (flags : UInt8) (rbuf : Bytes) (payload : PayloadStage) :
    (readPaddingLength flags rbuf payload).data = [] := by
  unfold readPaddingLength
  split
  · rfl
  · split
    · rfl
    · simp only
      split <;> rfl

theorem readPriority_data (flags : UInt8) (rbuf : Bytes) (payload : PayloadStage) :
    (readPriority flags rbuf payload).data = [] := by
  unfold readPriority
  split
  · rfl
  · split <;> rfl

theorem readPaddingContent_data (flags : UInt8) (rbuf : Bytes) (payload : PayloadStage) :
    (readPaddingContent flags rbuf payload).data = [] := by
  unfold readPaddingContent
  split
  · rfl
  · split
    · rfl
    · split
      · rfl
      · simp only
        split
        · rfl
        · split <;> rfl

theorem readPriority_of_not {flags : UInt8} (h : hasFlag flags priorityFlag = false) (rbuf : Bytes)
    (payload : PayloadStage) : readPriority flags rbuf payload = { res := true, rbuf, payload } := by
  simp [readPriority, h]

namespace Client

theorem processHeadersFramePayload_eq {c : Client} {header : FrameHeader} {payload : PayloadStage} {it : Stream}
    (hfind : c.findStream header.streamId = some it) :
    c.processHeadersFramePayload header payload =
      let r := readFrame header.flags c.rbuf payload
      let c' := { c with hpackReadBuff := c.hpackReadBuff ++ r.data }
      if !r.res || failed r.ec then (c'.reads r, r.ec) else (c'.reads r).finishHeadersFrame header it := by
  have hdata₁ := readPaddingLength_data header.flags c.rbuf payload
  rcases h₁ : readPaddingLength header.flags c.rbuf payload with ⟨res₁, ec₁, rbuf₁, payload₁, data₁⟩
  have hdata₂ := readPriority_data header.flags rbuf₁ payload₁
  have hec₂ := @readPriority_ec header.flags rbuf₁ payload₁
  rcases h₂ : readPriority header.flags rbuf₁ payload₁ with ⟨res₂, ec₂, rbuf₂, payload₂, data₂⟩
  have hec₃ := @readDataContent_ec header.flags rbuf₂ payload₂
  rcases h₃ : readDataContent header.flags rbuf₂ payload₂ with ⟨res₃, ec₃, rbuf₃, payload₃, data₃⟩
  have hdata₄ := readPaddingContent_data header.flags rbuf₃ payload₃
  rcases h₄ : readPaddingContent header.flags rbuf₃ payload₃ with ⟨res₄, ec₄, rbuf₄, payload₄, data₄⟩
  simp only [h₁, h₂, h₃, h₄] at hdata₁ hdata₂ hec₂ hec₃ hdata₄
  subst hdata₁ hdata₂ hec₂ hec₃ hdata₄
  simp only [processHeadersFramePayload, hfind, readFrame, PayloadRead.andThen, h₁]
  cases res₁ with
  | false => simp [reads]
  | true =>
      cases hf₁ : failed ec₁ with
      | true => simp [hf₁, reads]
      | false =>
          cases res₂ with
          | false => simp [h₂, reads]
          | true =>
              cases res₃ with
              | false => simp [h₂, h₃, failed, reads]
              | true => simp [h₂, h₃, h₄, failed, reads]

theorem modifyStream_self (c : Client) (id : Nat) : (c.modifyStream id fun s => s) = c := by
  have hmodify : (c.openStreams.modify (c.openStreams.findIdx (·.id == id)) fun s => s) = c.openStreams :=
    List.modify_id _ _
  simp only [modifyStream, hmodify]

theorem processDataFramePayload_eq {c : Client} {header : FrameHeader} {payload : PayloadStage} {it : Stream}
    (hfind : c.findStream header.streamId = some it) (hpriority : hasFlag header.flags priorityFlag = false) :
    c.processDataFramePayload header payload =
      let r := readFrame header.flags c.rbuf payload
      let c' := c.modifyStream header.streamId fun s => { s with resBuff := s.resBuff ++ r.data }
      if !r.res || failed r.ec then (c'.reads r, r.ec)
      else ({ (c'.reads r).onStreamReceivedData header.streamId header.flags with parserStage := .header }, none) := by
  have hdata₁ := readPaddingLength_data header.flags c.rbuf payload
  rcases h₁ : readPaddingLength header.flags c.rbuf payload with ⟨res₁, ec₁, rbuf₁, payload₁, data₁⟩
  have h₂ := readPriority_of_not hpriority rbuf₁ payload₁
  have hec₃ := @readDataContent_ec header.flags rbuf₁ payload₁
  rcases h₃ : readDataContent header.flags rbuf₁ payload₁ with ⟨res₃, ec₃, rbuf₃, payload₃, data₃⟩
  have hdata₄ := readPaddingContent_data header.flags rbuf₃ payload₃
  rcases h₄ : readPaddingContent header.flags rbuf₃ payload₃ with ⟨res₄, ec₄, rbuf₄, payload₄, data₄⟩
  simp only [h₁, h₃, h₄] at hdata₁ hec₃ hdata₄
  subst hdata₁ hec₃ hdata₄
  simp only [processDataFramePayload, hfind, readFrame, PayloadRead.andThen, h₁]
  cases res₁ with
  | false => simp [reads, modifyStream_self]
  | true =>
      cases hf₁ : failed ec₁ with
      | true => simp [hf₁, reads, modifyStream_self]
      | false =>
          cases res₃ with
          | false => simp [h₂, h₃, failed, reads]
          | true => simp [h₂, h₃, h₄, failed, reads]

end Client

/-! ## The stage of a frame -/

/-- What the parser knows of a frame by its type: the length that the header may have, and the bytes that are read. -/
def Kind (header : FrameHeader) (payload : PayloadStage) : Prop :=
  match header.type with
  | .data => Sized header.flags header.length ∧ hasFlag header.flags priorityFlag = false
  | .headers => Sized header.flags header.length ∧ prefixSize header.flags < header.length
  | .continuation => True
  | .settings => header.length % 6 = 0 ∧ (hasFlag header.flags settingsAckFlag → header.length = 0) ∧
    payload.consumedSize % 6 = 0 ∧ (payload.consumedSize < header.length ∨ header.length = 0 ∧ payload.consumedSize = 0)
  | .priority => header.length = 5 ∧ payload.consumedSize = 0
  | .rstStream | .windowUpdate => header.length = 4 ∧ payload.consumedSize = 0
  | .ping => header.length = 8 ∧ payload.consumedSize = 0
  | .goaway => 8 ≤ header.length ∧ payload.consumedSize = 0
  | .pushPromise | .unknown _ => False

/-- The payload stage of a frame whose header was accepted. -/
structure Accepted (lastClientId : Nat) (header : FrameHeader) (payload : PayloadStage) : Prop where
  totalSize : payload.totalSize = header.length
  minReadSize : payload.minReadSize = header.minPayloadSize
  lt : header.length < 2 ^ 64
  consumedSize : payload.consumedSize < 2 ^ 64
  streamId : header.streamId ≤ lastClientId
  kind : Kind header payload

/-- A frame with headers or data, of which any part may be read. -/
def FrameHeader.isReadInParts (header : FrameHeader) : Prop :=
  header.type = .data ∨ header.type = .headers ∨ header.type = .continuation

theorem Accepted.of_parts {lastClientId : Nat} {header : FrameHeader} {payload payload' : PayloadStage}
    (h : Accepted lastClientId header payload) (hparts : header.isReadInParts)
    (htotal : payload'.totalSize = payload.totalSize) (hmin : payload'.minReadSize = payload.minReadSize)
    (hconsumed : payload'.consumedSize < 2 ^ 64) : Accepted lastClientId header payload' := by
  refine ⟨htotal.trans h.totalSize, hmin.trans h.minReadSize, h.lt, hconsumed, h.streamId, ?_⟩
  have hkind := h.kind
  unfold Kind at hkind ⊢
  rcases hparts with htype | htype | htype
  · simpa only [htype] using hkind
  · simpa only [htype] using hkind
  · simp only [htype]

/-- A pass takes `n` bytes from the buffer. It opens no stream, and leaves the frame header as it is. -/
structure PayloadStep (c : Client) (n : Nat) (c' : Client) : Prop where
  le : n ≤ c.rbuf.length
  rbuf : c'.rbuf = c.rbuf.drop n
  lastHeader : c'.lastHeader = c.lastHeader
  stopped : c'.stopped = c.stopped
  lastClientId : c'.lastClientId = c.lastClientId
  rbufExhausted : c.rbufExhausted → c'.rbufExhausted
  streamIds : c'.streamIds.Sublist c.streamIds

namespace PayloadStep

variable {c c' c'' : Client} {n : Nat}

theorem length_rbuf (h : PayloadStep c n c') : c'.rbuf.length + n = c.rbuf.length := by
  rw [h.rbuf, List.length_drop]
  have := h.le
  omega

theorem openStreams (h : PayloadStep c n c') : c'.openStreams.length ≤ c.openStreams.length := by
  simpa [Client.streamIds] using h.streamIds.length_le

theorem trans {m : Nat} (h : PayloadStep c n c') (h' : PayloadStep c' m c'') : PayloadStep c (n + m) c'' := by
  refine ⟨?_, by rw [h'.rbuf, h.rbuf, List.drop_drop], h'.lastHeader.trans h.lastHeader, h'.stopped.trans h.stopped,
    h'.lastClientId.trans h.lastClientId, fun hx => h'.rbufExhausted (h.rbufExhausted hx), h'.streamIds.trans h.streamIds⟩
  have := h.length_rbuf
  have := h'.length_rbuf
  omega

theorem untouched (h : PayloadStep c n c') (h' : Client.Untouched c' c'') : PayloadStep c n c'' :=
  ⟨h.le, h'.rbuf.trans h.rbuf, h'.lastHeader.trans h.lastHeader, h'.stopped.trans h.stopped,
    h'.lastClientId.trans h.lastClientId, fun hx => h'.rbufExhausted ▸ h.rbufExhausted hx, h'.streamIds.trans h.streamIds⟩

theorem setStage (h : PayloadStep c n c') (stage : ParserStage) : PayloadStep c n { c' with parserStage := stage } :=
  ⟨h.le, h.rbuf, h.lastHeader, h.stopped, h.lastClientId, h.rbufExhausted, h.streamIds⟩

theorem reads {payload : PayloadStage} {r : PayloadRead} (h : Takes c.rbuf payload n r) : PayloadStep c n (c.reads r) :=
  ⟨h.le, h.rbuf, rfl, rfl, rfl, fun hx => hx, .refl _⟩

end PayloadStep

/-- A pass in the payload stage comes nearer to the end of the loop. -/
def Shrinks (c c' : Client) : Prop :=
  c'.rbuf.length < c.rbuf.length ∨ c'.parserStage = .header ∨ c'.openStreams.length < c.openStreams.length

/-- What a pass in the payload stage of a frame leaves. -/
structure PayloadPass (c : Client) (header : FrameHeader) (c' : Client) : Prop where
  step : ∃ n, PayloadStep c n c'
  stage : c'.parserStage = .header ∨ ∃ payload, c'.parserStage = .payload payload ∧
    Accepted c.lastClientId header payload

namespace Client

variable {c : Client} {header : FrameHeader} {payload : PayloadStage}

/-! ## Discarding -/

theorem discardPayload_pass (hacc : Accepted c.lastClientId header payload) (hparts : header.isReadInParts) :
    PayloadPass c header (c.discardPayload payload) := by
  refine ⟨⟨_, Nat.min_le_right _ _, rfl, rfl, rfl, rfl, fun hx => hx, .refl _⟩, ?_⟩
  simp only [discardPayload]
  split
  · exact .inl rfl
  · exact .inr ⟨_, rfl, hacc.of_parts hparts rfl rfl (addSize_lt _ _)⟩

theorem discardPayload_shrinks (htotal : payload.totalSize < 2 ^ 64) (hconsumed : payload.consumedSize < 2 ^ 64)
    (hne : c.rbuf ≠ [] ∨ payload.consumedSize = payload.totalSize) : Shrinks c (c.discardPayload payload) := by
  by_cases heq : payload.consumedSize = payload.totalSize
  · refine .inr (.inl ?_)
    have hzero : subSize payload.totalSize payload.consumedSize = 0 := by
      rw [subSize_of_le (by omega) htotal]; omega
    simp only [discardPayload, hzero, Nat.zero_min]
    rw [if_pos (by rw [addSize_of_lt (by omega)]; exact heq)]
  · have hpos := subSize_pos htotal hconsumed heq
    have hlen : 0 < c.rbuf.length := List.length_pos_iff.2 (hne.resolve_right heq)
    refine .inl ?_
    simp only [discardPayload, List.length_drop]
    omega

/-! ## Frames with headers -/

/-- The ways in which a frame with headers ends: the decoder fails, the frame is done, or the block is refused and the
stage stays as it is. -/
theorem finishHeadersFrame_cases (c : Client) (header : FrameHeader) (it : Stream) :
    failed (c.finishHeadersFrame header it).2 = true ∨
    (∃ c', Untouched c c' ∧ c.finishHeadersFrame header it = ({ c' with parserStage := .header }, none)) ∨
    (hasFlag header.flags endHeadersFlag = true ∧ (c.handleHeadersBlock header.flags it).2 = (false, none) ∧
      ∃ c', Untouched c c' ∧ c'.streamIds = c.streamIds ∧
        c.finishHeadersFrame header it = (c'.closeOpenStream it.id (some .protocolError) true, none)) := by
  unfold finishHeadersFrame
  simp only
  split
  · rename_i hend
    obtain ⟨c', huntouched, hids, herror | hrefused | haccepted⟩ := handleHeadersBlock_cases c header.flags it
    · rw [herror]
      exact .inl rfl
    · rw [hrefused]
      exact .inr (.inr ⟨hend, rfl, c', huntouched, hids, rfl⟩)
    · rw [haccepted]
      exact .inr (.inl ⟨_, huntouched.trans (onStreamReceivedHeaders_untouched _ _ _), rfl⟩)
  · exact .inr (.inl ⟨_, onStreamReceivedHeaders_untouched _ _ _, rfl⟩)

theorem findStream_of_streamIds {c c' : Client} {id : Nat} (hids : c'.streamIds = c.streamIds) {it : Stream}
    (hfind : c.findStream id = some it) : ∃ it', c'.findStream id = some it' := by
  have hmem : id ∈ c'.streamIds := by
    rw [hids, ← findStream_isSome_iff, hfind]; rfl
  exact Option.isSome_iff_exists.1 (findStream_isSome_iff.2 hmem)

theorem finishHeadersFrame_pass {c₀ : Client} {it : Stream} {n : Nat} (hstep : PayloadStep c n c₀)
    (hstage : c₀.parserStage = .payload payload) (hacc : Accepted c.lastClientId header payload)
    (hec : failed (c₀.finishHeadersFrame header it).2 = false) :
    PayloadPass c header (c₀.finishHeadersFrame header it).1 := by
  rcases finishHeadersFrame_cases c₀ header it with hfail | ⟨c', huntouched, heq⟩ | ⟨-, -, c', huntouched, -, heq⟩
  · rw [hfail] at hec; cases hec
  · rw [heq]
    exact ⟨⟨n, (hstep.untouched huntouched).setStage _⟩, .inl rfl⟩
  · rw [heq]
    have hclose := huntouched.trans (closeOpenStream_untouched c' it.id (some .protocolError) true)
    exact ⟨⟨n, hstep.untouched hclose⟩, .inr ⟨payload, hclose.parserStage.trans hstage, hacc⟩⟩

theorem finishHeadersFrame_shrinks {c₀ : Client} {it : Stream} (hids : c₀.streamIds = c.streamIds)
    (hfind : c.findStream header.streamId = some it) (hec : failed (c₀.finishHeadersFrame header it).2 = false) :
    Shrinks c (c₀.finishHeadersFrame header it).1 := by
  rcases finishHeadersFrame_cases c₀ header it with hfail | ⟨c', -, heq⟩ | ⟨-, -, c', -, hids', heq⟩
  · rw [hfail] at hec; cases hec
  · rw [heq]
    exact .inr (.inl rfl)
  · rw [heq]
    obtain ⟨it', hfind'⟩ := findStream_of_streamIds (hids'.trans hids) hfind
    have hlength : c'.openStreams.length = c.openStreams.length := by
      simpa [streamIds] using congrArg List.length (hids'.trans hids)
    rw [findStream_id hfind]
    exact .inr (.inr (Nat.lt_of_lt_of_eq (closeOpenStream_length hfind' _ _) hlength))

theorem processHeadersFramePayload_pass (hacc : Accepted c.lastClientId header payload) (htype : header.type = .headers)
    (hec : failed (c.processHeadersFramePayload header payload).2 = false) :
    PayloadPass c header (c.processHeadersFramePayload header payload).1 := by
  have hparts : header.isReadInParts := .inr (.inl htype)
  cases hfind : c.findStream header.streamId with
  | none => simpa only [processHeadersFramePayload, hfind] using discardPayload_pass hacc hparts
  | some it =>
      obtain ⟨n, htakes⟩ := readFrame_takes header.flags c.rbuf payload
      have hacc' := hacc.of_parts hparts htakes.totalSize htakes.minReadSize (htakes.consumedSize hacc.consumedSize)
      have hstep : PayloadStep c n ({ c with
          hpackReadBuff := c.hpackReadBuff ++ (readFrame header.flags c.rbuf payload).data }.reads
            (readFrame header.flags c.rbuf payload)) :=
        ⟨htakes.le, htakes.rbuf, rfl, rfl, rfl, fun hx => hx, .refl _⟩
      rw [processHeadersFramePayload_eq hfind] at hec ⊢
      simp only at hec ⊢
      split at hec
      · rename_i hstop
        rw [if_pos hstop]
        exact ⟨⟨n, hstep⟩, .inr ⟨_, rfl, hacc'⟩⟩
      · rename_i hgo
        rw [if_neg hgo]
        exact finishHeadersFrame_pass hstep rfl hacc' hec

theorem processHeadersFramePayload_shrinks (hacc : Accepted c.lastClientId header payload) (hne : c.rbuf ≠ [])
    (hcut : (c.findStream header.streamId).isSome → ¬PriorityCut header.flags c.rbuf payload)
    (hec : failed (c.processHeadersFramePayload header payload).2 = false) :
    Shrinks c (c.processHeadersFramePayload header payload).1 := by
  cases hfind : c.findStream header.streamId with
  | none =>
      simpa only [processHeadersFramePayload, hfind] using
        discardPayload_shrinks (hacc.totalSize ▸ hacc.lt) hacc.consumedSize (.inl hne)
  | some it =>
      have hmoves := readFrame_moves hne (hcut (by rw [hfind]; rfl))
      rw [processHeadersFramePayload_eq hfind] at hec ⊢
      simp only at hec ⊢
      split at hec
      · rename_i hstop
        rw [if_pos hstop]
        rcases hmoves with hfail | hres | hless
        · rw [hfail] at hec; cases hec
        · simp [hres, hec] at hstop
        · exact .inl hless
      · rename_i hgo
        rw [if_neg hgo]
        refine finishHeadersFrame_shrinks ?_ hfind hec
        rfl

/-! ## Frames with data -/

theorem readFrame_of_zero {flags : UInt8} (rbuf : Bytes) (hsized : Sized flags payload.totalSize)
    (htotal : payload.totalSize = 0) (hconsumed : payload.consumedSize = 0) :
    (readFrame flags rbuf payload).res = true ∧ (readFrame flags rbuf payload).ec = none := by
  have hle := hsized.le
  have hpadded : hasFlag flags paddedFlag = false := by
    cases h : hasFlag flags paddedFlag
    · rfl
    · simp only [prefixSize, h, ↓reduceIte] at hle; omega
  have hpriority : hasFlag flags priorityFlag = false := by
    cases h : hasFlag flags priorityFlag
    · rfl
    · simp only [prefixSize, h, ↓reduceIte] at hle; omega
  have hdata : consumedData flags payload = dataLen flags payload := by
    simp [consumedData, dataLen, hpadded, hpriority, htotal, hconsumed]
  simp [readFrame, readPaddingLength, readPriority, readDataContent, readPaddingContent, PayloadRead.andThen, hpadded,
    hpriority, hdata, failed]

theorem processDataFramePayload_pass (hacc : Accepted c.lastClientId header payload) (htype : header.type = .data) :
    PayloadPass c header (c.processDataFramePayload header payload).1 := by
  have hparts : header.isReadInParts := .inl htype
  have hkind := hacc.kind
  simp only [Kind, htype] at hkind
  cases hfind : c.findStream header.streamId with
  | none => simpa only [processDataFramePayload, hfind] using discardPayload_pass hacc hparts
  | some it =>
      obtain ⟨n, htakes⟩ := readFrame_takes header.flags c.rbuf payload
      have hacc' := hacc.of_parts hparts htakes.totalSize htakes.minReadSize (htakes.consumedSize hacc.consumedSize)
      set c' := c.modifyStream header.streamId fun s => { s with
        resBuff := s.resBuff ++ (readFrame header.flags c.rbuf payload).data } with hc'
      have hids : c'.streamIds = c.streamIds := modifyStream_streamIds c _ fun _ => rfl
      have hstep : PayloadStep c n (c'.reads (readFrame header.flags c.rbuf payload)) :=
        ⟨htakes.le, htakes.rbuf, rfl, rfl, rfl, fun hx => hx, hids ▸ .refl _⟩
      rw [processDataFramePayload_eq hfind hkind.2]
      simp only [← hc']
      split
      · exact ⟨⟨n, hstep⟩, .inr ⟨_, rfl, hacc'⟩⟩
      · exact ⟨⟨n, (hstep.untouched (onStreamReceivedHeaders_untouched _ _ _)).setStage _⟩, .inl rfl⟩

theorem processDataFramePayload_shrinks (hacc : Accepted c.lastClientId header payload) (htype : header.type = .data)
    (hne : c.rbuf ≠ [] ∨ payload.totalSize = 0 ∧ payload.consumedSize = 0)
    (hec : failed (c.processDataFramePayload header payload).2 = false) :
    Shrinks c (c.processDataFramePayload header payload).1 := by
  have hkind := hacc.kind
  simp only [Kind, htype] at hkind
  cases hfind : c.findStream header.streamId with
  | none =>
      simpa only [processDataFramePayload, hfind] using
        discardPayload_shrinks (hacc.totalSize ▸ hacc.lt) hacc.consumedSize (hne.imp_right fun h => by omega)
  | some it =>
      have hmoves : Moves c.rbuf (readFrame header.flags c.rbuf payload) := by
        rcases hne with hne | ⟨htotal, hconsumed⟩
        · exact readFrame_moves hne fun hcut => by simp [hcut.1] at hkind
        · exact .inr (.inl (readFrame_of_zero _ (hacc.totalSize ▸ hkind.1) htotal hconsumed).1)
      rw [processDataFramePayload_eq hfind hkind.2] at hec ⊢
      simp only at hec ⊢
      split at hec
      · rename_i hstop
        rw [if_pos hstop]
        rcases hmoves with hfail | hres | hless
        · rw [hfail] at hec; cases hec
        · simp [hres, hec] at hstop
        · exact .inl hless
      · rename_i hgo
        rw [if_neg hgo]
        exact .inr (.inl rfl)

/-! ## CONTINUATION -/

theorem processContinuationFramePayload_pass (hacc : Accepted c.lastClientId header payload)
    (htype : header.type = .continuation) (hec : failed (c.processContinuationFramePayload header payload).2 = false) :
    PayloadPass c header (c.processContinuationFramePayload header payload).1 := by
  have hparts : header.isReadInParts := .inr (.inr htype)
  cases hfind : c.findStream header.streamId with
  | none => simpa only [processContinuationFramePayload, hfind] using discardPayload_pass hacc hparts
  | some it =>
      simp only [processContinuationFramePayload, hfind] at hec ⊢
      set n := min (subSize payload.totalSize payload.consumedSize) c.rbuf.length
      have hacc' : Accepted c.lastClientId header { payload with consumedSize := addSize payload.consumedSize n } :=
        hacc.of_parts hparts rfl rfl (addSize_lt _ _)
      have hstep : PayloadStep c n { c with
          hpackReadBuff := c.hpackReadBuff ++ c.rbuf.take n, rbuf := c.rbuf.drop n
          parserStage := .payload { payload with consumedSize := addSize payload.consumedSize n } } :=
        ⟨Nat.min_le_right _ _, rfl, rfl, rfl, rfl, fun hx => hx, .refl _⟩
      split at hec
      · rename_i hall
        rw [if_pos hall]
        exact finishHeadersFrame_pass hstep rfl hacc' hec
      · rename_i hmore
        rw [if_neg hmore]
        exact ⟨⟨n, hstep⟩, .inr ⟨_, rfl, hacc'⟩⟩

theorem processContinuationFramePayload_shrinks (hacc : Accepted c.lastClientId header payload)
    (hne : c.rbuf ≠ [] ∨ payload.consumedSize = payload.totalSize)
    (hec : failed (c.processContinuationFramePayload header payload).2 = false) :
    Shrinks c (c.processContinuationFramePayload header payload).1 := by
  have htotal : payload.totalSize < 2 ^ 64 := hacc.totalSize ▸ hacc.lt
  have hconsumed := hacc.consumedSize
  cases hfind : c.findStream header.streamId with
  | none => simpa only [processContinuationFramePayload, hfind] using discardPayload_shrinks htotal hconsumed hne
  | some it =>
      simp only [processContinuationFramePayload, hfind] at hec ⊢
      split at hec
      · rename_i hall
        rw [if_pos hall]
        exact finishHeadersFrame_shrinks rfl hfind hec
      · rename_i hmore
        rw [if_neg hmore]
        refine .inl ?_
        have hdiff : payload.consumedSize ≠ payload.totalSize := by
          intro heq
          have hzero : subSize payload.totalSize payload.consumedSize = 0 := by
            rw [subSize_of_le (by omega) htotal]; omega
          rw [hzero, Nat.zero_min, addSize_of_lt (by omega)] at hmore
          exact hmore heq
        have hpos := subSize_pos htotal hconsumed hdiff
        have hlen : 0 < c.rbuf.length := List.length_pos_iff.2 (hne.resolve_right hdiff)
        simp only [List.length_drop]
        omega

end Client

end Rad.Http2
