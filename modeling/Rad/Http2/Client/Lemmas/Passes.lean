import Rad.Http2.Client.Lemmas.Seen

/-!
# What a pass does to the streams

A pass over a payload changes at most the stream of its frame: data is appended to it, a header block is handled, or it is
closed. All the ways are listed here once.
-/

namespace Rad.Http2

open Lib Client

namespace Client

variable {c c' d : Client} {id id' : Nat} {it it' : Stream} {ec : Option Error}

/-! ## One stream -/

theorem findStream_congr (h : c'.openStreams = c.openStreams) : c'.findStream id = c.findStream id := by
  unfold findStream
  rw [h]

theorem findStream_modifyStream (hid : it.id = id) (hopen : (c.findStream id).isSome) :
    (c.modifyStream id fun _ => it).findStream id = some it := by
  obtain ⟨old, hold⟩ := Option.isSome_iff_exists.1 hopen
  have hfind := find?_modify (f := fun _ => it) (p := fun s : Stream => s.id == id) (fun _ _ => by simp [hid]) c.openStreams
  unfold findStream at hold
  rw [hold] at hfind
  exact hfind

theorem findStream_modifyStream_of_ne (hid : it.id = id) (hne : id' ≠ id) :
    (c.modifyStream id fun _ => it).findStream id' = c.findStream id' := by
  refine find?_modify_of_not (fun s hs => ?_) c.openStreams
  rw [beq_iff_eq] at hs
  simp [hs, hid, hne.symm]

theorem findStream_abandon_of_ne (hne : id' ≠ id) : (c.abandon id).findStream id' = c.findStream id' := by
  refine find?_eraseIdx_of_not (fun s hs => ?_) c.openStreams
  rw [beq_iff_eq] at hs
  simp [hs, hne.symm]

theorem findStream_abandon (hids : c.streamIds.Nodup) : (c.abandon id).findStream id = none := by
  cases hfind : c.findStream id with
  | none =>
      rw [findStream_eq_none_iff] at hfind ⊢
      exact fun hmem => hfind (((List.eraseIdx_sublist _ _).map _).subset hmem)
  | some it =>
      have hclose := closeOpenStream_findStream hids id none false
      unfold closeOpenStream at hclose
      rw [hfind] at hclose
      exact hclose

/-! ## The fate of a stream -/

/-- The stream with the id is changed to `it`. -/
structure Leaves (c : Client) (id : Nat) (it : Stream) (c' : Client) : Prop where
  openStreams : c'.openStreams = (c.modifyStream id fun _ => it).openStreams
  closedStreams : c'.closedStreams = c.closedStreams

/-- The stream with the id is closed, and its object is `it` but for the error code. -/
structure Ends (c : Client) (id : Nat) (it : Stream) (ec : Option Error) (c' : Client) : Prop where
  openStreams : c'.openStreams = (c.abandon id).openStreams
  closedStreams : c'.closedStreams = c.closedStreams ++ [{ it with rstEc := ec, state := .closed }]

/-- The stream with the id is changed to `it`, and leaves the open streams if both sides have ended it. -/
inductive Settles (c : Client) (id : Nat) (it : Stream) (c' : Client) : Prop where
  | leaves (hopen : it.isClosed = false) (h : Leaves c id it c')
  | ends (hclosed : it.isClosed = true) (h : Ends c id it none c')

theorem modifyStream_leaves (hfind : c.findStream id = some it) (f : Stream → Stream) :
    Leaves c id (f it) (c.modifyStream id f) :=
  ⟨modify_of_find? hfind f, rfl⟩

theorem leaves_of_eq (hfind : c.findStream id = some it) (hopen : c'.openStreams = c.openStreams)
    (hclosed : c'.closedStreams = c.closedStreams) : Leaves c id it c' :=
  ⟨by rw [hopen]; exact (modify_self hfind).symm, hclosed⟩

theorem closeOpenStream_ends (hfind : c.findStream id = some it) (ec : Option Error) (sendRst : Bool) :
    Ends c id it ec (c.closeOpenStream id ec sendRst) := by
  unfold closeOpenStream
  rw [hfind]
  exact ⟨rfl, rfl⟩

theorem Leaves.congr (h : Leaves c id it c') (hopen : d.openStreams = c'.openStreams)
    (hclosed : d.closedStreams = c'.closedStreams) : Leaves c id it d :=
  ⟨hopen.trans h.openStreams, hclosed.trans h.closedStreams⟩

theorem Ends.congr (h : Ends c id it ec c') (hopen : d.openStreams = c'.openStreams)
    (hclosed : d.closedStreams = c'.closedStreams) : Ends c id it ec d :=
  ⟨hopen.trans h.openStreams, hclosed.trans h.closedStreams⟩

theorem Settles.congr (h : Settles c id it c') (hopen : d.openStreams = c'.openStreams)
    (hclosed : d.closedStreams = c'.closedStreams) : Settles c id it d := by
  cases h with
  | leaves hstate h => exact .leaves hstate (h.congr hopen hclosed)
  | ends hstate h => exact .ends hstate (h.congr hopen hclosed)

theorem Leaves.findStream (h : Leaves c id it d) (hid : it.id = id) (hopen : (c.findStream id).isSome) :
    d.findStream id = some it :=
  (findStream_congr h.openStreams).trans (findStream_modifyStream hid hopen)

theorem Leaves.trans (h : Leaves c id it d) (hid : it.id = id) (h' : Leaves d id it' c') : Leaves c id it' c' := by
  have hmodify := modify_modify (f := fun _ => it) (p := fun s : Stream => s.id == id) (fun _ _ => by simp [hid])
    (fun _ => it') c.openStreams
  refine ⟨?_, h'.closedStreams.trans h.closedStreams⟩
  rw [h'.openStreams, modifyStream, h.openStreams]
  exact hmodify

theorem Leaves.trans_ends (h : Leaves c id it d) (hid : it.id = id) (h' : Ends d id it' ec c') :
    Ends c id it' ec c' := by
  have herase := eraseIdx_modify (f := fun _ => it) (p := fun s : Stream => s.id == id) (fun _ _ => by simp [hid])
    c.openStreams
  refine ⟨?_, by rw [h'.closedStreams, h.closedStreams]⟩
  rw [h'.openStreams, abandon, h.openStreams]
  exact herase

theorem Leaves.trans_settles (h : Leaves c id it d) (hid : it.id = id) (h' : Settles d id it' c') :
    Settles c id it' c' := by
  cases h' with
  | leaves hstate h' => exact .leaves hstate (h.trans hid h')
  | ends hstate h' => exact .ends hstate (h.trans_ends hid h')

theorem findStream_of_mem (hids : c.streamIds.Nodup) (hit : it ∈ c.openStreams) : c.findStream it.id = some it := by
  obtain ⟨old, hold⟩ := Option.isSome_iff_exists.1 (findStream_isSome_iff.2 (List.mem_map_of_mem hit))
  rw [hold, List.inj_on_of_nodup_map hids (List.mem_of_find?_eq_some hold) hit (findStream_id hold)]

theorem Leaves.streamIds (h : Leaves c id it c') (hid : it.id = id) (hopen : (c.findStream id).isSome) :
    c'.streamIds = c.streamIds := by
  obtain ⟨old, hold⟩ := Option.isSome_iff_exists.1 hopen
  have hsame : c'.openStreams = (c.modifyStream id fun s => { it with id := s.id }).openStreams := by
    rw [h.openStreams, (modifyStream_leaves hold fun s => { it with id := s.id }).openStreams, findStream_id hold, ← hid]
  rw [Client.streamIds, hsame]
  exact modifyStream_streamIds c id fun _ => rfl

/-- The streams after a change of one of them. -/
theorem Leaves.mem (h : Leaves c id it c') (hid : it.id = id) (hopen : (c.findStream id).isSome)
    (hids : c.streamIds.Nodup) (hmem : it' ∈ c'.openStreams) : it' = it ∨ it'.id ≠ id ∧ it' ∈ c.openStreams := by
  have hfound := findStream_of_mem ((h.streamIds hid hopen).symm ▸ hids) hmem
  by_cases heq : it'.id = id
  · rw [heq, h.findStream hid hopen] at hfound
    exact .inl (Option.some.inj hfound).symm
  · refine .inr ⟨heq, List.mem_of_find?_eq_some (p := fun s => s.id == it'.id) ?_⟩
    rw [findStream_congr h.openStreams, findStream_modifyStream_of_ne hid heq] at hfound
    exact hfound

theorem Ends.mem (h : Ends c id it ec c') (hids : c.streamIds.Nodup) (hmem : it' ∈ c'.openStreams) :
    it'.id ≠ id ∧ it' ∈ c.openStreams := by
  rw [h.openStreams] at hmem
  refine ⟨fun heq => ?_, (List.eraseIdx_sublist _ _).subset hmem⟩
  have hnone := @findStream_abandon c id hids
  rw [findStream_eq_none_iff] at hnone
  exact hnone (List.mem_map.2 ⟨it', hmem, heq⟩)

theorem Settles.mem (h : Settles c id it c') (hid : it.id = id) (hopen : (c.findStream id).isSome)
    (hids : c.streamIds.Nodup) (hmem : it' ∈ c'.openStreams) :
    it' = it ∧ it.isClosed = false ∨ it'.id ≠ id ∧ it' ∈ c.openStreams := by
  cases h with
  | leaves hstate h => exact (h.mem hid hopen hids hmem).imp_left fun heq => ⟨heq, hstate⟩
  | ends hstate h => exact .inr (h.mem hids hmem)

/-! ## Ends of frames -/

/-- The stream behind a frame with the flags. -/
def afterFlags (flags : UInt8) (it : Stream) : Stream :=
  if hasFlag flags endStreamFlag && hasFlag flags endHeadersFlag then it.recvES else it

theorem onStreamReceivedHeaders_settles (hfind : c.findStream id = some it) (flags : UInt8) :
    Settles c id (afterFlags flags it) (c.onStreamReceivedHeaders id flags) := by
  have hid : it.id = id := findStream_id hfind
  have hafter : (afterFlags flags it).id = id := by
    unfold afterFlags
    split <;> exact hid
  have hleaves : Leaves c id (afterFlags flags it)
      (if hasFlag flags endStreamFlag && hasFlag flags endHeadersFlag then c.modifyStream id Stream.recvES else c) := by
    unfold afterFlags
    split
    · exact modifyStream_leaves hfind _
    · exact leaves_of_eq hfind rfl rfl
  have hfound := hleaves.findStream hafter (by rw [hfind]; rfl)
  unfold onStreamReceivedHeaders
  dsimp only
  rw [hfound]
  dsimp only
  by_cases hclosed : (afterFlags flags it).isClosed = true
  · rw [if_pos hclosed]
    exact .ends hclosed (hleaves.trans_ends hafter (closeOpenStream_ends hfound none false))
  · rw [if_neg hclosed]
    exact .leaves (by simpa using hclosed) hleaves

/-! ## Header blocks -/

/-- What the handling of a complete header block does to its stream. -/
inductive Handled (c : Client) (flags : UInt8) (it : Stream) : Client × Bool × Option Error → Prop where
  | failed (d : Client) (res : Http.Response) (h : Leaves c it.id { it with res } d) :
      Handled c flags it (d, false, some .compressionError)
  | refused (d : Client) (res : Http.Response) (h : Ends c it.id { it with res } (some .protocolError) d)
      (hstage : d.parserStage = c.parserStage) : Handled c flags it (d, false, none)
  | trailers (d : Client) (htrailers : it.receivedTrailers = true) (h : Leaves c it.id it d) :
      Handled c flags it (d, true, none)
  | informational (d : Client) (res : Http.Response) (htrailers : it.receivedTrailers = false)
      (hfinal : it.receivedFinalRes = false) (hes : hasFlag flags endStreamFlag = false)
      (hinfo : (c.hdecoder.decodeResponse c.hpackReadBuff it.res).1.isInformational = true)
      (h : Leaves c it.id { it with wantsHeaders := true, res } d) : Handled c flags it (d, true, none)
  | final (d : Client) (res : Http.Response) (htrailers : it.receivedTrailers = false)
      (hinfo : (c.hdecoder.decodeResponse c.hpackReadBuff it.res).1.isInformational = false)
      (h : Leaves c it.id { it with receivedFinalRes := true, res } d) : Handled c flags it (d, true, none)

theorem decodeHeadersBlock_leaves (hfind : c.findStream it.id = some it) :
    ∃ res, Leaves c it.id { it with res } (c.decodeHeadersBlock it).2.2 ∧
      (c.decodeHeadersBlock it).2.2.parserStage = c.parserStage ∧ (it.receivedTrailers = true → res = it.res) := by
  unfold decodeHeadersBlock
  split
  · exact ⟨it.res, leaves_of_eq hfind rfl rfl, rfl, fun _ => rfl⟩
  · rename_i htrailers
    refine ⟨(c.hdecoder.decodeResponse c.hpackReadBuff it.res).1, ?_, rfl, fun h => absurd h htrailers⟩
    exact (modifyStream_leaves hfind fun s => { s with
      res := (c.hdecoder.decodeResponse c.hpackReadBuff it.res).1 }).congr rfl rfl

theorem decodeHeadersBlock_response (htrailers : it.receivedTrailers = false) :
    (c.decodeHeadersBlock it).1 = (c.hdecoder.decodeResponse c.hpackReadBuff it.res).1 := by
  simp [decodeHeadersBlock, htrailers]

theorem handleHeadersBlock_handled (hfind : c.findStream it.id = some it) (flags : UInt8) :
    Handled c flags it (c.handleHeadersBlock flags it) := by
  obtain ⟨res, hleaves, hstage, hres⟩ := decodeHeadersBlock_leaves hfind
  have hopen : (c.findStream it.id).isSome := by rw [hfind]; rfl
  unfold handleHeadersBlock
  rcases hdecode : c.decodeHeadersBlock it with ⟨res', err, d⟩
  rw [hdecode] at hleaves hstage
  have hfound := hleaves.findStream rfl hopen
  have hrefused : Handled c flags it (d.refuseHeadersBlock it.id) :=
    .refused _ res (hleaves.trans_ends rfl (closeOpenStream_ends hfound (some .protocolError) true))
      ((closeOpenStream_untouched d _ _ _).parserStage.trans hstage)
  cases err with
  | some err => exact .failed d res hleaves
  | none =>
      dsimp only
      split
      · exact hrefused
      · split
        · exact hrefused
        · split
          · rename_i htrailers
            refine .trailers d htrailers ?_
            rw [hres htrailers] at hleaves
            exact hleaves
          · rename_i htrailers
            simp only [Bool.not_eq_true] at htrailers
            have hdecoded := decodeHeadersBlock_response (c := c) htrailers
            rw [hdecode] at hdecoded
            split
            · rename_i hinfo
              split
              · exact hrefused
              · split
                · exact hrefused
                · rename_i hfinal
                  split
                  · exact hrefused
                  · rename_i hes
                    simp only [Bool.not_eq_true] at hfinal hes
                    exact .informational _ res.clear htrailers hfinal hes (hdecoded ▸ hinfo) (hleaves.trans rfl
                      (modifyStream_leaves hfound fun s => { s with wantsHeaders := true, res := s.res.clear }))
            · rename_i hinfo
              simp only [Bool.not_eq_true] at hinfo
              exact .final _ res htrailers (hdecoded ▸ hinfo)
                (hleaves.trans rfl (modifyStream_leaves hfound fun s => { s with receivedFinalRes := true }))

/-- What becomes of the stream when a frame with headers is read to the end. -/
inductive BlockCase (c : Client) (header : FrameHeader) (it : Stream) (c' : Client) : Prop where
  /-- CONTINUATION frames are to follow -/
  | part (hend : hasFlag header.flags endHeadersFlag = false) (h : Settles c it.id it c')
      (hstage : c'.parserStage = .header)
  | refused (res : Http.Response) (hend : hasFlag header.flags endHeadersFlag = true)
      (h : Ends c it.id { it with res } (some .protocolError) c') (hstage : c'.parserStage = c.parserStage)
  | trailers (hend : hasFlag header.flags endHeadersFlag = true) (htrailers : it.receivedTrailers = true)
      (h : Settles c it.id (afterFlags header.flags it) c') (hstage : c'.parserStage = .header)
  | informational (res : Http.Response) (hend : hasFlag header.flags endHeadersFlag = true)
      (htrailers : it.receivedTrailers = false) (hfinal : it.receivedFinalRes = false)
      (hes : hasFlag header.flags endStreamFlag = false)
      (hinfo : (c.hdecoder.decodeResponse c.hpackReadBuff it.res).1.isInformational = true)
      (h : Settles c it.id { it with wantsHeaders := true, res } c') (hstage : c'.parserStage = .header)
  | final (res : Http.Response) (hend : hasFlag header.flags endHeadersFlag = true)
      (htrailers : it.receivedTrailers = false)
      (hinfo : (c.hdecoder.decodeResponse c.hpackReadBuff it.res).1.isInformational = false)
      (h : Settles c it.id (afterFlags header.flags { it with receivedFinalRes := true, res }) c')
      (hstage : c'.parserStage = .header)

theorem finishHeadersFrame_block {header : FrameHeader} (hfind : c.findStream it.id = some it)
    (hec : failed (c.finishHeadersFrame header it).2 = false) :
    BlockCase c header it (c.finishHeadersFrame header it).1 := by
  have hopen : (c.findStream it.id).isSome := by rw [hfind]; rfl
  have hend : ∀ {d : Client} {it' : Stream}, Leaves c it.id it' d → it'.id = it.id →
      Settles c it.id (afterFlags header.flags it')
        { d.onStreamReceivedHeaders it.id header.flags with parserStage := .header } := fun h hid =>
    (h.trans_settles hid (onStreamReceivedHeaders_settles (h.findStream hid hopen) header.flags)).congr rfl rfl
  have hhandled := handleHeadersBlock_handled hfind header.flags
  unfold finishHeadersFrame at hec ⊢
  dsimp only at hec ⊢
  by_cases hflag : hasFlag header.flags endHeadersFlag = true
  · rw [if_pos hflag] at hec ⊢
    rcases hblock : c.handleHeadersBlock header.flags it with ⟨d, res, ec⟩
    rw [hblock] at hec hhandled
    cases hhandled with
    | failed => cases hec
    | refused _ res h hstage => exact .refused res hflag h hstage
    | trailers _ htrailers h => exact .trailers hflag htrailers (hend h rfl) rfl
    | informational _ res htrailers hfinal hes hinfo h =>
        have hsettles := hend h rfl
        rw [afterFlags, hes] at hsettles
        exact .informational res hflag htrailers hfinal hes hinfo hsettles rfl
    | final _ res htrailers hinfo h => exact .final res hflag htrailers hinfo (hend h rfl) rfl
  · rw [if_neg hflag] at hec ⊢
    have hsettles := hend (leaves_of_eq hfind rfl rfl : Leaves c it.id it c) rfl
    have hsame : afterFlags header.flags it = it := by simp [afterFlags, hflag]
    rw [hsame] at hsettles
    exact .part (by simpa using hflag) hsettles rfl

/-! ## Payloads -/

/-- The part of a header block that a pass reads. -/
def fragment (c : Client) (header : FrameHeader) (payload : PayloadStage) : Bytes :=
  if header.type = .headers then (readFrame header.flags c.rbuf payload).data
  else c.rbuf.take (min (subSize payload.totalSize payload.consumedSize) c.rbuf.length)

/-- What a pass over a payload does to the streams. -/
inductive PayloadCase (c : Client) (header : FrameHeader) (payload : PayloadStage) (c' : Client) : Prop where
  /-- the frame has nothing to do with an open stream, or is not complete -/
  | quiet (hparts : header.isReadInParts → c.findStream header.streamId = none)
      (hopen : c'.openStreams = c.openStreams) (hclosed : c'.closedStreams = c.closedStreams)
      (hblock : c'.hpackReadBuff = c.hpackReadBuff)
  /-- RST_STREAM, or WINDOW_UPDATE with an increment of zero -/
  | reset (it : Stream) (ec : Error) (htype : header.type = .rstStream ∨ header.type = .windowUpdate)
      (hfind : c.findStream header.streamId = some it) (h : Ends c header.streamId it (some ec) c')
      (hblock : c'.hpackReadBuff = c.hpackReadBuff) (hstage : c'.parserStage = .header)
  | data (it : Stream) (r : PayloadRead) (htype : header.type = .data) (hfind : c.findStream header.streamId = some it)
      (hr : r = readFrame header.flags c.rbuf payload)
      (h : Leaves c header.streamId { it with resBuff := it.resBuff ++ r.data } c')
      (hblock : c'.hpackReadBuff = c.hpackReadBuff) (hres : r.res = false) (hrbuf : c'.rbuf = r.rbuf)
      (hstage : c'.parserStage = .payload r.payload)
  | dataEnd (it : Stream) (r : PayloadRead) (htype : header.type = .data)
      (hfind : c.findStream header.streamId = some it) (hr : r = readFrame header.flags c.rbuf payload)
      (h : Settles c header.streamId
        (afterFlags (header.flags ||| endHeadersFlag) { it with resBuff := it.resBuff ++ r.data }) c')
      (hblock : c'.hpackReadBuff = c.hpackReadBuff) (hres : r.res = true) (hec : failed r.ec = false)
      (hrbuf : c'.rbuf = r.rbuf) (hstage : c'.parserStage = .header)
  | block (it : Stream) (stage : PayloadStage) (htype : header.type = .headers ∨ header.type = .continuation)
      (hfind : c.findStream header.streamId = some it) (hopen : c'.openStreams = c.openStreams)
      (hclosed : c'.closedStreams = c.closedStreams)
      (hblock : c'.hpackReadBuff = c.hpackReadBuff ++ c.fragment header payload)
      (hstage : c'.parserStage = .payload stage)
  | blockEnd (it : Stream) (rbuf : Bytes) (stage : PayloadStage)
      (htype : header.type = .headers ∨ header.type = .continuation) (hfind : c.findStream header.streamId = some it)
      (h : BlockCase
        { c with
          hpackReadBuff := c.hpackReadBuff ++ c.fragment header payload, rbuf, parserStage := .payload stage }
        header it c')
      (hblock : c'.hpackReadBuff = c.hpackReadBuff ++ c.fragment header payload)

section Payloads

variable {header : FrameHeader} {payload : PayloadStage}

theorem finishHeadersFrame_hpackReadBuff (c : Client) (header : FrameHeader) (it : Stream) :
    (c.finishHeadersFrame header it).1.hpackReadBuff = c.hpackReadBuff := by
  obtain ⟨_, _, _, _, _, _, heq⟩ := finishHeadersFrame_only c header it
  rw [heq]

theorem discardPayload_case (hnone : c.findStream header.streamId = none) :
    PayloadCase c header payload (c.discardPayload payload) :=
  .quiet (fun _ => hnone) rfl rfl rfl

theorem processDataFramePayload_case (htype : header.type = .data)
    (hpriority : hasFlag header.flags priorityFlag = false)
    (hec : failed (c.processDataFramePayload header payload).2 = false) :
    PayloadCase c header payload (c.processDataFramePayload header payload).1 := by
  cases hfind : c.findStream header.streamId with
  | none =>
      simp only [processDataFramePayload, hfind]
      exact discardPayload_case hfind
  | some it =>
      rw [processDataFramePayload_eq hfind hpriority] at hec ⊢
      have hid : it.id = header.streamId := findStream_id hfind
      generalize hr : readFrame header.flags c.rbuf payload = r at hec ⊢
      dsimp only at hec ⊢
      generalize hd : (c.modifyStream header.streamId fun s => { s with resBuff := s.resBuff ++ r.data }).reads r = d
        at hec ⊢
      have hleaves : Leaves c header.streamId { it with resBuff := it.resBuff ++ r.data } d := by
        rw [← hd]
        exact (modifyStream_leaves hfind fun s => { s with resBuff := s.resBuff ++ r.data }).congr rfl rfl
      have hfound := hleaves.findStream hid (by rw [hfind]; rfl)
      have hrbuf : d.rbuf = r.rbuf := by rw [← hd]; rfl
      have hblock : d.hpackReadBuff = c.hpackReadBuff := by rw [← hd]; rfl
      split at hec
      · rename_i hstops
        have hres : r.res = false := by simpa [hec] using hstops
        rw [if_pos hstops]
        exact .data it r htype hfind hr.symm hleaves hblock hres hrbuf (by rw [← hd]; rfl)
      · rename_i hgoes
        rw [if_neg hgoes]
        simp only [Bool.or_eq_true, Bool.not_eq_true', not_or, Bool.not_eq_false, Bool.not_eq_true] at hgoes
        have hsettles := hleaves.trans_settles hid
          (onStreamReceivedHeaders_settles hfound (header.flags ||| endHeadersFlag))
        obtain ⟨_, _, _, _, heq⟩ := onStreamReceivedHeaders_streamsOnly d header.streamId (header.flags ||| endHeadersFlag)
        refine .dataEnd it r htype hfind hr.symm (hsettles.congr rfl rfl) ?_ hgoes.1 hgoes.2 ?_ rfl
        · rw [onStreamReceivedData, heq]
          exact hblock
        · rw [onStreamReceivedData, heq]
          exact hrbuf

theorem processHeadersFramePayload_case (htype : header.type = .headers)
    (hec : failed (c.processHeadersFramePayload header payload).2 = false) :
    PayloadCase c header payload (c.processHeadersFramePayload header payload).1 := by
  cases hfind : c.findStream header.streamId with
  | none =>
      simp only [processHeadersFramePayload, hfind]
      exact discardPayload_case hfind
  | some it =>
      rw [processHeadersFramePayload_eq hfind] at hec ⊢
      have hid : it.id = header.streamId := findStream_id hfind
      have hfragment : c.fragment header payload = (readFrame header.flags c.rbuf payload).data := if_pos htype
      dsimp only at hec ⊢
      split at hec
      · rename_i hstops
        rw [if_pos hstops]
        exact .block it _ (.inl htype) hfind rfl rfl (by rw [hfragment]; rfl) rfl
      · rename_i hgoes
        rw [if_neg hgoes]
        refine .blockEnd it (readFrame header.flags c.rbuf payload).rbuf (readFrame header.flags c.rbuf payload).payload
          (.inl htype) hfind ?_ ?_
        · rw [hfragment]
          exact finishHeadersFrame_block (by rw [hid]; exact hfind) hec
        · rw [finishHeadersFrame_hpackReadBuff, hfragment]
          rfl

theorem processContinuationFramePayload_case (htype : header.type = .continuation)
    (hec : failed (c.processContinuationFramePayload header payload).2 = false) :
    PayloadCase c header payload (c.processContinuationFramePayload header payload).1 := by
  cases hfind : c.findStream header.streamId with
  | none =>
      simp only [processContinuationFramePayload, hfind]
      exact discardPayload_case hfind
  | some it =>
      have hid : it.id = header.streamId := findStream_id hfind
      have hfragment : c.fragment header payload =
          c.rbuf.take (min (subSize payload.totalSize payload.consumedSize) c.rbuf.length) := by
        rw [fragment, if_neg (by simp [htype])]
      simp only [processContinuationFramePayload, hfind] at hec ⊢
      split at hec
      · rename_i hall
        rw [if_pos hall]
        have hblock := finishHeadersFrame_block (by rw [hid]; exact hfind) hec
        rw [← hfragment] at hblock ⊢
        exact .blockEnd it _ _ (.inr htype) hfind hblock (finishHeadersFrame_hpackReadBuff _ _ _)
      · rename_i hall
        rw [if_neg hall]
        exact .block it _ (.inr htype) hfind rfl rfl (by rw [hfragment]) rfl

theorem with_parserStage {stage : ParserStage} (h : c.parserStage = stage) : { c with parserStage := stage } = c := by
  rw [← h]

theorem closed_case (htype : header.type = .rstStream ∨ header.type = .windowUpdate) (ec : Error) (sendRst : Bool)
    (hopen : d.openStreams = c.openStreams) (hclosed : d.closedStreams = c.closedStreams)
    (hblock : d.hpackReadBuff = c.hpackReadBuff) :
    PayloadCase c header payload
      { d.closeOpenStream header.streamId (some ec) sendRst with parserStage := .header } := by
  have hparts : ¬header.isReadInParts := by
    unfold FrameHeader.isReadInParts
    rcases htype with htype | htype <;> simp [htype]
  obtain ⟨_, _, _, _, heq⟩ := closeOpenStream_streamsOnly d header.streamId (some ec) sendRst
  cases hfind : d.findStream header.streamId with
  | none =>
      simp only [closeOpenStream, hfind]
      exact .quiet (fun h => absurd h hparts) hopen hclosed hblock
  | some it =>
      have hends := closeOpenStream_ends hfind (some ec) sendRst
      refine .reset it ec htype ((findStream_congr hopen).symm.trans hfind) ⟨?_, ?_⟩ ?_ rfl
      · rw [hends.openStreams, abandon, hopen]
        rfl
      · rw [hends.closedStreams, hclosed]
      · rw [heq]
        exact hblock

theorem processFramePayload_case (hacc : Accepted c.lastClientId header payload)
    (hec : failed (c.processFramePayload header payload).2 = false) :
    PayloadCase c header payload (c.processFramePayload header payload).1 := by
  have hkind := hacc.kind
  unfold processFramePayload at hec ⊢
  unfold Kind at hkind
  have hquiet : ∀ {c' : Client}, ¬header.isReadInParts → c'.openStreams = c.openStreams →
      c'.closedStreams = c.closedStreams → c'.hpackReadBuff = c.hpackReadBuff → PayloadCase c header payload c' :=
    fun hparts hopen hclosed hblock => .quiet (fun h => absurd h hparts) hopen hclosed hblock
  cases htype : header.type with
  | data =>
      simp only [htype] at hec hkind ⊢
      exact processDataFramePayload_case htype hkind.2 hec
  | headers =>
      simp only [htype] at hec ⊢
      exact processHeadersFramePayload_case htype hec
  | continuation =>
      simp only [htype] at hec ⊢
      exact processContinuationFramePayload_case htype hec
  | settings =>
      have hkeeps := (processSettingsFramePayload_step c header payload).settingsKeeps
      exact hquiet (by simp [FrameHeader.isReadInParts, htype]) hkeeps.openStreams hkeeps.closedStreams hkeeps.hpackReadBuff
  | ping =>
      dsimp only
      unfold processPingFramePayload
      have hparts : ¬header.isReadInParts := by simp [FrameHeader.isReadInParts, htype]
      split
      · exact hquiet hparts rfl rfl rfl
      · dsimp only
        split
        · exact hquiet hparts rfl rfl rfl
        · split <;> exact hquiet hparts rfl rfl rfl
  | priority =>
      dsimp only
      unfold processPriorityFramePayload
      have hparts : ¬header.isReadInParts := by simp [FrameHeader.isReadInParts, htype]
      split <;> exact hquiet hparts rfl rfl rfl
  | rstStream =>
      dsimp only
      unfold processRstFramePayload
      have hparts : ¬header.isReadInParts := by simp [FrameHeader.isReadInParts, htype]
      split
      · exact hquiet hparts rfl rfl rfl
      · have hstage := (closeOpenStream_untouched { c with rbuf := c.rbuf.drop 4, parserStage := .header }
          header.streamId (some (.ofCode (ofBigEndian (c.rbuf.take 4)))) false).parserStage
        dsimp only
        rw [← with_parserStage hstage]
        exact closed_case (.inl htype) _ false rfl rfl rfl
  | goaway =>
      dsimp only
      unfold processGoawayFramePayload
      have hparts : ¬header.isReadInParts := by simp [FrameHeader.isReadInParts, htype]
      split <;> exact hquiet hparts rfl rfl rfl
  | windowUpdate =>
      dsimp only
      unfold processWindowUpdateFramePayload
      have hparts : ¬header.isReadInParts := by simp [FrameHeader.isReadInParts, htype]
      split
      · exact hquiet hparts rfl rfl rfl
      · dsimp only
        split
        · split
          · exact closed_case (.inr htype) .protocolError true rfl rfl rfl
          · exact hquiet hparts rfl rfl rfl
        · exact hquiet hparts rfl rfl rfl
  | pushPromise => simp only [htype] at hkind
  | unknown value => simp only [htype] at hkind

end Payloads

/-! ## Frame headers -/

/-- The stream behind the header of a frame. -/
def notedStream (it : Stream) (header : FrameHeader) : Stream :=
  { it with
    receivedTrailers := it.receivedTrailers || (!it.wantsHeaders && header.type = .headers)
    wantsHeaders := it.wantsHeaders && !(header.type = .headers)
    receivedContinuations := nextContinuations it header }

theorem noteHeader_leaves {header : FrameHeader} (hfind : c.findStream header.streamId = some it) :
    Leaves c header.streamId (notedStream it header) (c.noteHeader it header) :=
  modifyStream_leaves hfind fun s => { s with
    receivedTrailers := s.receivedTrailers || (!s.wantsHeaders && header.type = .headers)
    wantsHeaders := s.wantsHeaders && !(header.type = .headers)
    receivedContinuations := nextContinuations it header }

/-- What an accepted frame header does to the streams. -/
inductive HeaderCase (c : Client) (header : FrameHeader) (c' : Client) : Prop where
  | quiet (htype : ¬header.isReadInParts) (hopen : c'.openStreams = c.openStreams)
      (hclosed : c'.closedStreams = c.closedStreams) (hblock : c'.hpackReadBuff = c.hpackReadBuff)
  | late (it : Stream) (hfind : c.findStream header.streamId = some it) (hremote : it.isHalfClosedRemote = true)
      (htype : header.mayBeSentToHalfClosedRemoteStream = false)
      (h : Ends c header.streamId it (some .streamClosed) c') (hblock : c'.hpackReadBuff = c.hpackReadBuff)
  | headers (it : Stream) (hfind : c.findStream header.streamId = some it) (hremote : it.isHalfClosedRemote = false)
      (htype : header.type = .headers)
      (hphase : it.wantsHeaders = true ∨ it.receivedFinalRes = true ∧ it.receivedTrailers = false ∧
        hasFlag header.flags endStreamFlag = true)
      (h : Leaves c header.streamId (notedStream it header) c') (hblock : c'.hpackReadBuff = [])
  | data (it : Stream) (hfind : c.findStream header.streamId = some it) (hremote : it.isHalfClosedRemote = false)
      (htype : header.type = .data) (hphase : it.wantsHeaders = false) (hfits : c.dataFits it header = true)
      (h : Leaves c header.streamId (noteData it header (notedStream it header)) c')
      (hblock : c'.hpackReadBuff = c.hpackReadBuff)
  | overlong (it : Stream) (hfind : c.findStream header.streamId = some it) (hremote : it.isHalfClosedRemote = false)
      (htype : header.type = .data) (hphase : it.wantsHeaders = false) (hfits : c.dataFits it header = false)
      (h : Ends c header.streamId { notedStream it header with receivedData := dataAfter it header }
        (some .frameSizeError) c') (hblock : c'.hpackReadBuff = c.hpackReadBuff)
  | other (it : Stream) (hfind : c.findStream header.streamId = some it) (hremote : it.isHalfClosedRemote = false)
      (hheaders : header.type ≠ .headers) (hdata : header.type ≠ .data)
      (hphase : header.type = .continuation → it.wantsHeaders = false)
      (h : Leaves c header.streamId (notedStream it header) c') (hblock : c'.hpackReadBuff = c.hpackReadBuff)

theorem HeaderStep.headerCase {header : FrameHeader} (h : HeaderStep c header c') : HeaderCase c header c' := by
  cases h with
  | passes htype =>
      refine .quiet (fun hparts => ?_) rfl rfl rfl
      rcases hparts with h | h | h
      · exact htype.1 h
      · exact htype.2.1 h
      · exact htype.2.2 h
  | late it hfind hremote htype =>
      obtain ⟨_, _, _, _, heq⟩ := closeOpenStream_streamsOnly c header.streamId (some .streamClosed) true
      exact .late it hfind hremote htype (closeOpenStream_ends hfind _ _) (by rw [heq])
  | headers it hfind hremote htype hphase =>
      exact .headers it hfind hremote htype hphase ((noteHeader_leaves hfind).congr rfl rfl) rfl
  | data it hfind hremote htype hphase hfits =>
      have hid : (notedStream it header).id = header.streamId := (findStream_id hfind : it.id = header.streamId)
      have hnoted := noteHeader_leaves hfind
      have hfound := hnoted.findStream hid (by rw [hfind]; rfl)
      exact .data it hfind hremote htype hphase hfits
        ((hnoted.trans hid (modifyStream_leaves hfound (noteData it header))).congr rfl rfl) rfl
  | overlong it hfind hremote htype hphase hfits =>
      have hid : (notedStream it header).id = header.streamId := (findStream_id hfind : it.id = header.streamId)
      have hnoted := noteHeader_leaves hfind
      have hfound := hnoted.findStream hid (by rw [hfind]; rfl)
      have hcounted := hnoted.trans hid
        (modifyStream_leaves hfound fun s => { s with receivedData := dataAfter it header })
      have hclose := closeOpenStream_ends (hcounted.findStream hid (by rw [hfind]; rfl)) (some .frameSizeError) true
      obtain ⟨_, _, _, _, heq⟩ := closeOpenStream_streamsOnly ((c.noteHeader it header).modifyStream header.streamId
        fun s => { s with receivedData := dataAfter it header }) header.streamId (some .frameSizeError) true
      exact .overlong it hfind hremote htype hphase hfits (hcounted.trans_ends hid hclose) (by rw [heq]; rfl)
  | other it hfind hremote hheaders hdata hphase =>
      exact .other it hfind hremote hheaders hdata hphase (noteHeader_leaves hfind) rfl

end Client

end Rad.Http2
