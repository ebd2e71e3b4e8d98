import Rad.Http2.Client.Lemmas.Invariant

/-!
# Frames that are read in parts

The bytes that a pass takes are those that the stage counts, as long as the padding is whole. The stage of an open stream
is in one of the phases of its frame; once the stream is closed, only the number of bytes matters.
-/

namespace Rad.Http2

open Lib Client

/-- Not more than the frame is read, and of a frame on an open stream what its phases say. -/
structure Reading (c : Client) (header : FrameHeader) (payload : PayloadStage) : Prop where
  le : payload.consumedSize ≤ payload.totalSize
  phase : (c.findStream header.streamId).isSome → header.type ≠ .continuation → Phase header.flags payload

theorem Reading.of_none {c : Client} {header : FrameHeader} {payload : PayloadStage}
    (hle : payload.consumedSize ≤ payload.totalSize) (hnone : c.findStream header.streamId = none) :
    Reading c header payload :=
  ⟨hle, fun hopen => by rw [hnone] at hopen; cases hopen⟩

theorem Reading.fresh (c : Client) (header : FrameHeader) (total min : Nat) :
    Reading c header { totalSize := total, minReadSize := min } :=
  ⟨Nat.zero_le _, fun _ _ => .start rfl rfl⟩

theorem Reading.congr {c c' : Client} {header : FrameHeader} {payload : PayloadStage} (h : Reading c header payload)
    (hopen : (c'.findStream header.streamId).isSome → (c.findStream header.streamId).isSome) :
    Reading c' header payload :=
  ⟨h.le, fun hopen' => h.phase (hopen hopen')⟩

theorem Reading.of_rely {c c' : Client} {header : FrameHeader} {payload : PayloadStage} (h : Reading c header payload)
    (hrely : Rely c c') (hid : header.streamId ≤ c.lastClientId) : Reading c' header payload := by
  refine h.congr fun hopen => ?_
  rw [findStream_isSome_iff] at hopen ⊢
  obtain ⟨new, hsub, -, hless⟩ := hrely.streamIds
  rcases List.mem_append.1 (hsub.subset hopen) with hmem | hmem
  · exact hmem
  · have := (hless _ hmem).1
    omega

/-- What a pass leaves of a frame that is read in parts: its end, or the stage with the bytes counted. -/
structure PartRead (c : Client) (header : FrameHeader) (payload : PayloadStage) (n : Nat) (c' : Client) : Prop where
  step : PayloadStep c n c'
  ends : (c'.parserStage = .header ∧ payload.consumedSize + n = payload.totalSize) ∨
    ∃ payload', c'.parserStage = .payload payload' ∧ payload'.totalSize = payload.totalSize ∧
      payload'.consumedSize = payload.consumedSize + n ∧ Reading c' header payload' ∧
      (payload'.consumedSize = payload'.totalSize → Refused c header payload)
  all : payload.totalSize ≤ payload.consumedSize + c.rbuf.length → payload.consumedSize + n = payload.totalSize
  moves : c.rbuf ≠ [] → payload.consumedSize < payload.totalSize →
    ((c.findStream header.streamId).isSome → ¬PriorityCut header.flags c.rbuf payload) → 0 < n

namespace Client

variable {c : Client} {header : FrameHeader} {payload : PayloadStage}

theorem discardPayload_reads (hle : payload.consumedSize ≤ payload.totalSize) (hlt : payload.totalSize < 2 ^ 64)
    (hfind : c.findStream header.streamId = none) : ∃ n, PartRead c header payload n (c.discardPayload payload) := by
  unfold discardPayload
  rw [subSize_of_le hle hlt]
  set n := min (payload.totalSize - payload.consumedSize) c.rbuf.length
  simp only [addSize_of_lt (show payload.consumedSize + n < 2 ^ 64 by omega)]
  refine ⟨n, ⟨Nat.min_le_right _ _, rfl, rfl, rfl, rfl, fun hx => hx, .refl _⟩, ?_, by omega,
    fun hne => by have := List.length_pos_iff.2 hne; omega⟩
  simp only
  split
  · rename_i hall
    exact .inl ⟨rfl, hall⟩
  · rename_i hmore
    exact .inr ⟨_, rfl, rfl, rfl, .of_none (by simp only; omega) hfind, fun hall => absurd hall hmore⟩

/-- Handling a header block depends on the block, the decoder and the limit alone. -/
theorem handleHeadersBlock_snd {c c' : Client} (hblock : c'.hpackReadBuff = c.hpackReadBuff)
    (hdecoder : c'.hdecoder = c.hdecoder) (hlimit : c'.selfMaxHeaderListSize = c.selfMaxHeaderListSize) (flags : UInt8)
    (it : Stream) : (c'.handleHeadersBlock flags it).2 = (c.handleHeadersBlock flags it).2 := by
  have hdecode : ∀ d : Client, d.hpackReadBuff = c.hpackReadBuff → d.hdecoder = c.hdecoder →
      d.selfMaxHeaderListSize = c.selfMaxHeaderListSize →
      (d.decodeHeadersBlock it).1 = (c.decodeHeadersBlock it).1 ∧
      (d.decodeHeadersBlock it).2.1 = (c.decodeHeadersBlock it).2.1 ∧
      (d.decodeHeadersBlock it).2.2.selfMaxHeaderListSize = c.selfMaxHeaderListSize := by
    intro d hb hd hl
    unfold decodeHeadersBlock
    split
    · exact ⟨by rw [hb, hd], by rw [hb, hd], hl⟩
    · exact ⟨by rw [hb, hd], by rw [hb, hd], hl⟩
  obtain ⟨hres', herr', hmax'⟩ := hdecode c' hblock hdecoder hlimit
  obtain ⟨-, -, hmax⟩ := hdecode c rfl rfl rfl
  unfold handleHeadersBlock
  rcases h' : c'.decodeHeadersBlock it with ⟨res', err', d'⟩
  rcases h : c.decodeHeadersBlock it with ⟨res, err, d⟩
  simp only [h, h'] at hres' herr' hmax' hmax
  subst hres' herr'
  cases err' with
  | some err => rfl
  | none =>
      simp only [hmax, hmax']
      repeat' split
      all_goals rfl

/-- The end of a frame with headers: `c₀` is the client with all its bytes read. -/
theorem finishHeadersFrame_reads {c₀ : Client} {it : Stream} {n : Nat} (hids : c.streamIds.Nodup)
    (hstep : PayloadStep c n c₀) (hids₀ : c₀.streamIds = c.streamIds) {payload₀ : PayloadStage}
    (hstage : c₀.parserStage = .payload payload₀) (htotal : payload₀.totalSize = payload.totalSize)
    (hall : payload₀.consumedSize = payload.totalSize) (hcount : payload.consumedSize + n = payload.totalSize)
    (hfind : c.findStream header.streamId = some it)
    (hrefused : hasFlag header.flags endHeadersFlag = true → (c₀.handleHeadersBlock header.flags it).2 = (false, none) →
      Refused c header payload)
    (hec : failed (c₀.finishHeadersFrame header it).2 = false) :
    PartRead c header payload n (c₀.finishHeadersFrame header it).1 := by
  rcases finishHeadersFrame_cases c₀ header it with hfail | ⟨c', huntouched, heq⟩ | ⟨hend, hblock, c', huntouched, hids', heq⟩
  · rw [hfail] at hec; cases hec
  · rw [heq]
    exact ⟨(hstep.untouched huntouched).setStage _, .inl ⟨rfl, hcount⟩, fun _ => hcount, by omega⟩
  · rw [heq]
    have hclose := huntouched.trans (closeOpenStream_untouched c' it.id (some .protocolError) true)
    have hnone : (c'.closeOpenStream it.id (some .protocolError) true).findStream header.streamId = none := by
      rw [findStream_id hfind]
      refine closeOpenStream_findStream ?_ _ _ _
      rw [hids', hids₀]
      exact hids
    exact ⟨hstep.untouched hclose, .inr ⟨payload₀, hclose.parserStage.trans hstage, htotal, by omega,
      .of_none (by omega) hnone, fun _ => hrefused hend hblock⟩, fun _ => hcount, by omega⟩

theorem readFrame_parts {flags : UInt8} {rbuf : Bytes} (hphase : Phase flags payload)
    (hsized : Sized flags payload.totalSize) (hwraps : ¬PaddingWraps flags rbuf payload)
    (hcut : ¬PaddingCut flags rbuf payload) (hec : failed (readFrame flags rbuf payload).ec = false) :
    ∃ n, Takes rbuf payload n (readFrame flags rbuf payload) ∧
      (readFrame flags rbuf payload).payload.consumedSize = payload.consumedSize + n ∧
      ((readFrame flags rbuf payload).res = true ∧ payload.consumedSize + n = payload.totalSize ∨
        (readFrame flags rbuf payload).res = false ∧ Phase flags (readFrame flags rbuf payload).payload ∧
          payload.consumedSize + n < payload.totalSize ∧
          payload.consumedSize + rbuf.length < payload.totalSize ∧
          (rbuf ≠ [] → ¬PriorityCut flags rbuf payload → 0 < n)) := by
  obtain ⟨n, htakes⟩ := readFrame_takes flags rbuf payload
  obtain ⟨hcounts, hends⟩ := readFrame_phase hphase hsized hwraps hcut hec
  have hlen := htakes.length_rbuf
  unfold Counts at hcounts
  refine ⟨n, htakes, by omega, hends.imp (fun h => ⟨h.1, by omega⟩) fun h => ⟨h.1, h.2.1, by omega, ?_, fun hne hpriority => ?_⟩⟩
  · by_contra hall
    rw [(readFrame_complete hphase hsized hwraps (by omega) hec).1] at h
    cases h.1
  · rcases readFrame_moves hne hpriority with hfail | hres | hless
    · rw [hec] at hfail; cases hfail
    · rw [h.1] at hres; cases hres
    · omega

theorem partRead_of_stops {c' : Client} {r : PayloadRead} {n : Nat} (hstep : PayloadStep c n c')
    (hstage : c'.parserStage = .payload r.payload) (htakes : Takes c.rbuf payload n r)
    (hcount : r.payload.consumedSize = payload.consumedSize + n) (hopen : (c.findStream header.streamId).isSome)
    (hstops : Phase header.flags r.payload ∧ payload.consumedSize + n < payload.totalSize ∧
      payload.consumedSize + c.rbuf.length < payload.totalSize ∧
      (c.rbuf ≠ [] → ¬PriorityCut header.flags c.rbuf payload → 0 < n)) : PartRead c header payload n c' := by
  have htotal := htakes.totalSize
  obtain ⟨hphase, hless, hshort, hmoves⟩ := hstops
  exact ⟨hstep, .inr ⟨r.payload, hstage, htotal, hcount, ⟨by omega, fun _ _ => hphase⟩, fun hall => by omega⟩,
    fun hall => by omega, fun hne _ hpriority => hmoves hne (hpriority hopen)⟩

theorem processHeadersFramePayload_reads (hids : c.streamIds.Nodup) (hacc : Accepted c.lastClientId header payload)
    (htype : header.type = .headers) (hreading : Reading c header payload) (hpadding : PaddingWhole c header payload)
    (hec : failed (c.processHeadersFramePayload header payload).2 = false) :
    ∃ n, PartRead c header payload n (c.processHeadersFramePayload header payload).1 := by
  have hkind := hacc.kind
  simp only [Kind, htype, ← hacc.totalSize] at hkind
  cases hfind : c.findStream header.streamId with
  | none =>
      simpa only [processHeadersFramePayload, hfind] using discardPayload_reads hreading.le hkind.1.lt hfind
  | some it =>
      have hopen : (c.findStream header.streamId).isSome := by rw [hfind]; rfl
      obtain ⟨hwraps, hcut⟩ := hpadding (.inl htype) hopen
      have hphase := hreading.phase hopen (by simp [htype])
      have hfragment : blockFragment header c.rbuf payload = (readFrame header.flags c.rbuf payload).data := by
        simp only [blockFragment, htype]
      have hparts := readFrame_parts hphase hkind.1 hwraps hcut
      rw [processHeadersFramePayload_eq hfind] at hec ⊢
      generalize readFrame header.flags c.rbuf payload = r at hfragment hparts hec
      simp only at hec ⊢
      split at hec
      · rename_i hstop
        rw [if_pos hstop]
        obtain ⟨n, htakes, hcount, ⟨hres, -⟩ | ⟨-, hstops⟩⟩ := hparts hec
        · simp [hres, hec] at hstop
        · exact ⟨n, partRead_of_stops ⟨htakes.le, htakes.rbuf, rfl, rfl, rfl, fun hx => hx, .refl _⟩ rfl htakes hcount hopen
            hstops⟩
      · rename_i hgo
        rw [if_neg hgo]
        simp only [Bool.or_eq_true, Bool.not_eq_true', not_or, Bool.not_eq_false, Bool.not_eq_true] at hgo
        obtain ⟨n, htakes, hcount, ⟨-, hall⟩ | ⟨hres, -⟩⟩ := hparts hgo.2
        · have hstep : PayloadStep c n ({ c with hpackReadBuff := c.hpackReadBuff ++ r.data }.reads r) :=
            ⟨htakes.le, htakes.rbuf, rfl, rfl, rfl, fun hx => hx, .refl _⟩
          refine ⟨n, finishHeadersFrame_reads hids hstep rfl rfl htakes.totalSize (by omega) hall hfind
            (fun hend hblock => ⟨.inl htype, hend, it, hfind, ?_⟩) hec⟩
          rw [← hblock, hfragment]
          apply handleHeadersBlock_snd <;> rfl
        · rw [hgo.1] at hres
          cases hres

theorem processDataFramePayload_reads (hacc : Accepted c.lastClientId header payload)
    (htype : header.type = .data) (hreading : Reading c header payload) (hpadding : PaddingWhole c header payload)
    (hec : failed (c.processDataFramePayload header payload).2 = false) :
    ∃ n, PartRead c header payload n (c.processDataFramePayload header payload).1 := by
  have hkind := hacc.kind
  simp only [Kind, htype, ← hacc.totalSize] at hkind
  cases hfind : c.findStream header.streamId with
  | none => simpa only [processDataFramePayload, hfind] using discardPayload_reads hreading.le hkind.1.lt hfind
  | some it =>
      have hopen : (c.findStream header.streamId).isSome := by rw [hfind]; rfl
      obtain ⟨hwraps, hcut⟩ := hpadding (.inr htype) hopen
      have hphase := hreading.phase hopen (by simp [htype])
      have hparts := readFrame_parts hphase hkind.1 hwraps hcut
      rw [processDataFramePayload_eq hfind hkind.2] at hec ⊢
      generalize readFrame header.flags c.rbuf payload = r at hparts hec
      have hids' : (c.modifyStream header.streamId fun s => { s with resBuff := s.resBuff ++ r.data }).streamIds =
          c.streamIds := modifyStream_streamIds c _ fun _ => rfl
      simp only at hec ⊢
      split at hec
      · rename_i hstop
        rw [if_pos hstop]
        obtain ⟨n, htakes, hcount, ⟨hres, -⟩ | ⟨-, hstops⟩⟩ := hparts hec
        · simp [hres, hec] at hstop
        · exact ⟨n, partRead_of_stops ⟨htakes.le, htakes.rbuf, rfl, rfl, rfl, fun hx => hx, hids' ▸ .refl _⟩ rfl htakes hcount
            hopen hstops⟩
      · rename_i hgo
        rw [if_neg hgo]
        simp only [Bool.or_eq_true, Bool.not_eq_true', not_or, Bool.not_eq_false, Bool.not_eq_true] at hgo
        obtain ⟨n, htakes, hcount, ⟨-, hall⟩ | ⟨hres, -⟩⟩ := hparts hgo.2
        · have hstep : PayloadStep c n ((c.modifyStream header.streamId fun s => { s with
              resBuff := s.resBuff ++ r.data }).reads r) :=
            ⟨htakes.le, htakes.rbuf, rfl, rfl, rfl, fun hx => hx, hids' ▸ .refl _⟩
          exact ⟨n, (hstep.untouched (onStreamReceivedHeaders_untouched _ _ _)).setStage _, .inl ⟨rfl, hall⟩,
            fun _ => hall, by omega⟩
        · rw [hgo.1] at hres
          cases hres

theorem processContinuationFramePayload_reads (hids : c.streamIds.Nodup)
    (hacc : Accepted c.lastClientId header payload) (htype : header.type = .continuation)
    (hreading : Reading c header payload)
    (hec : failed (c.processContinuationFramePayload header payload).2 = false) :
    ∃ n, PartRead c header payload n (c.processContinuationFramePayload header payload).1 := by
  have hle := hreading.le
  have hlt : payload.totalSize < 2 ^ 64 := hacc.totalSize ▸ hacc.lt
  cases hfind : c.findStream header.streamId with
  | none => simpa only [processContinuationFramePayload, hfind] using discardPayload_reads hle hlt hfind
  | some it =>
      simp only [processContinuationFramePayload, hfind, subSize_of_le hle hlt] at hec ⊢
      set n := min (payload.totalSize - payload.consumedSize) c.rbuf.length with hn
      simp only [addSize_of_lt (show payload.consumedSize + n < 2 ^ 64 by omega)] at hec ⊢
      have hstep : PayloadStep c n { c with
          hpackReadBuff := c.hpackReadBuff ++ c.rbuf.take n, rbuf := c.rbuf.drop n
          parserStage := .payload { payload with consumedSize := payload.consumedSize + n } } :=
        ⟨Nat.min_le_right _ _, rfl, rfl, rfl, rfl, fun hx => hx, .refl _⟩
      split at hec
      · rename_i hall
        rw [if_pos hall]
        refine ⟨n, finishHeadersFrame_reads hids hstep rfl rfl rfl hall hall hfind
          (fun hend hblock => ⟨.inr htype, hend, it, hfind, ?_⟩) hec⟩
        have hfragment : blockFragment header c.rbuf payload = c.rbuf.take n := by
          simp only [blockFragment, htype]
          congr 1
          omega
        rw [← hblock, hfragment]
        apply handleHeadersBlock_snd <;> rfl
      · rename_i hmore
        rw [if_neg hmore]
        exact ⟨n, hstep, .inr ⟨_, rfl, rfl, rfl, ⟨by simp only; omega, fun _ hother => absurd htype hother⟩,
          fun hall => absurd hall hmore⟩, by omega, fun hne => by have := List.length_pos_iff.2 hne; omega⟩

theorem processFramePayload_reads (hids : c.streamIds.Nodup) (hacc : Accepted c.lastClientId header payload)
    (hparts : header.isReadInParts) (hreading : Reading c header payload) (hpadding : PaddingWhole c header payload)
    (hec : failed (c.processFramePayload header payload).2 = false) :
    ∃ n, PartRead c header payload n (c.processFramePayload header payload).1 := by
  unfold processFramePayload at hec ⊢
  rcases hparts with htype | htype | htype
  · simp only [htype] at hec ⊢
    exact processDataFramePayload_reads hacc htype hreading hpadding hec
  · simp only [htype] at hec ⊢
    exact processHeadersFramePayload_reads hids hacc htype hreading hpadding hec
  · simp only [htype] at hec ⊢
    exact processContinuationFramePayload_reads hids hacc htype hreading hec

end Client

end Rad.Http2
