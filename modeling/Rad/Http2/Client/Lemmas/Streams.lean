import Mathlib.Data.List.InsertIdx
import Mathlib.Data.List.Nodup
import Rad.Http2.Client.Lemmas.ReadFrame

/-!
# What the operations on streams leave alone

Closing and changing streams, decoding header blocks and checking frame headers do not touch the input of the parser, and
open no streams.
-/

namespace Rad.Http2

namespace Client

/-- The parser's input is the same, and no stream is opened. -/
structure Untouched (c c' : Client) : Prop where
  rbuf : c'.rbuf = c.rbuf
  parserStage : c'.parserStage = c.parserStage
  lastHeader : c'.lastHeader = c.lastHeader
  rbufExhausted : c'.rbufExhausted = c.rbufExhausted
  stopped : c'.stopped = c.stopped
  lastClientId : c'.lastClientId = c.lastClientId
  streamIds : c'.streamIds.Sublist c.streamIds

namespace Untouched

theorem refl (c : Client) : Untouched c c := ⟨rfl, rfl, rfl, rfl, rfl, rfl, .refl _⟩

theorem trans {c c' c'' : Client} (h : Untouched c c') (h' : Untouched c' c'') : Untouched c c'' :=
  ⟨h'.rbuf.trans h.rbuf, h'.parserStage.trans h.parserStage, h'.lastHeader.trans h.lastHeader,
    h'.rbufExhausted.trans h.rbufExhausted, h'.stopped.trans h.stopped, h'.lastClientId.trans h.lastClientId,
    h'.streamIds.trans h.streamIds⟩

end Untouched

/-! ## Changing and closing a stream -/

theorem modifyStream_streamIds (c : Client) (id : Nat) {f : Stream → Stream} (hf : ∀ s, (f s).id = s.id) :
    (c.modifyStream id f).streamIds = c.streamIds := by
  simp only [streamIds, modifyStream]
  apply List.ext_getElem?
  intro i
  simp only [List.getElem?_map, List.getElem?_modify]
  cases c.openStreams[i]? with
  | none => rfl
  | some s => simp only [Option.map_some]; split <;> simp [hf]

theorem modifyStream_untouched (c : Client) (id : Nat) {f : Stream → Stream} (hf : ∀ s, (f s).id = s.id) :
    Untouched c (c.modifyStream id f) :=
  ⟨rfl, rfl, rfl, rfl, rfl, rfl, by rw [modifyStream_streamIds c id hf]⟩

theorem findStream_isSome_iff {c : Client} {id : Nat} : (c.findStream id).isSome ↔ id ∈ c.streamIds := by
  simp [findStream, streamIds, List.find?_isSome]

theorem findStream_eq_none_iff {c : Client} {id : Nat} : c.findStream id = none ↔ id ∉ c.streamIds := by
  rw [← findStream_isSome_iff, ← Option.not_isSome_iff_eq_none]

theorem findStream_id {c : Client} {id : Nat} {s : Stream} (h : c.findStream id = some s) : s.id = id := by
  simpa using List.find?_some h

theorem findIdx_lt_length {c : Client} {id : Nat} {s : Stream} (h : c.findStream id = some s) :
    c.openStreams.findIdx (·.id == id) < c.openStreams.length :=
  List.findIdx_lt_length_of_exists ⟨s, List.mem_of_find?_eq_some h, by simp [findStream_id h]⟩

theorem closeOpenStream_untouched (c : Client) (id : Nat) (ec : Option Error) (sendRst : Bool) :
    Untouched c (c.closeOpenStream id ec sendRst) := by
  unfold closeOpenStream
  split
  · exact .refl c
  · exact ⟨rfl, rfl, rfl, rfl, rfl, rfl, (List.eraseIdx_sublist _ _).map _⟩

theorem closeOpenStream_length {c : Client} {id : Nat} {s : Stream} (h : c.findStream id = some s) (ec : Option Error)
    (sendRst : Bool) : (c.closeOpenStream id ec sendRst).openStreams.length < c.openStreams.length := by
  have hlt := findIdx_lt_length h
  simp only [closeOpenStream, h, List.length_eraseIdx, hlt, ↓reduceIte]
  omega

theorem closeOpenStream_findStream {c : Client} (hids : c.streamIds.Nodup) (id : Nat) (ec : Option Error)
    (sendRst : Bool) : (c.closeOpenStream id ec sendRst).findStream id = none := by
  cases h : c.findStream id with
  | none => simp only [closeOpenStream, h]
  | some s =>
      have hlt := findIdx_lt_length h
      have hat : (c.openStreams[c.openStreams.findIdx (·.id == id)]).id = id := by
        simpa using List.findIdx_getElem (w := hlt)
      have hids' : (c.closeOpenStream id ec sendRst).streamIds =
          c.streamIds.eraseIdx (c.openStreams.findIdx (·.id == id)) := by
        simp only [closeOpenStream, h, streamIds, List.eraseIdx_map]
      have hget : c.streamIds[c.openStreams.findIdx (·.id == id)]? = some id := by
        simp [streamIds, hlt, hat]
      rw [findStream_eq_none_iff, hids']
      obtain ⟨hlt', hget'⟩ := List.getElem?_eq_some_iff.1 hget
      rw [← hids.erase_getElem _ hlt', hget']
      exact hids.not_mem_erase

/-! ## Ends of frames -/

theorem onStreamReceivedHeaders_untouched (c : Client) (id : Nat) (flags : UInt8) :
    Untouched c (c.onStreamReceivedHeaders id flags) := by
  have hrecv : Untouched c (if hasFlag flags endStreamFlag && hasFlag flags endHeadersFlag then
      c.modifyStream id Stream.recvES else c) := by
    split
    · exact modifyStream_untouched c id fun _ => rfl
    · exact .refl c
  unfold onStreamReceivedHeaders
  simp only
  split
  · split
    · exact hrecv.trans (closeOpenStream_untouched _ _ _ _)
    · exact hrecv
  · exact hrecv

/-! ## Header blocks -/

theorem decodeHeadersBlock_untouched (c : Client) (it : Stream) : Untouched c (c.decodeHeadersBlock it).2.2 := by
  unfold decodeHeadersBlock
  split
  · exact ⟨rfl, rfl, rfl, rfl, rfl, rfl, .refl _⟩
  · have h : Untouched c (c.modifyStream it.id fun s => { s with
        res := (c.hdecoder.decodeResponse c.hpackReadBuff it.res).1 }) := modifyStream_untouched c it.id fun _ => rfl
    exact ⟨rfl, rfl, rfl, rfl, rfl, rfl, h.streamIds⟩

/-- The ways in which a header block is handled: the decoder fails, the response is refused and its stream is closed, or
it is accepted. -/
theorem handleHeadersBlock_cases (c : Client) (flags : UInt8) (it : Stream) :
    ∃ c', Untouched c c' ∧ c'.streamIds = c.streamIds ∧
      (c.handleHeadersBlock flags it = (c', false, some .compressionError) ∨
        c.handleHeadersBlock flags it = c'.refuseHeadersBlock it.id ∨
        c.handleHeadersBlock flags it = (c', true, none)) := by
  have hdecoded := decodeHeadersBlock_untouched c it
  have hids : (c.decodeHeadersBlock it).2.2.streamIds = c.streamIds := by
    unfold decodeHeadersBlock
    split
    · rfl
    · exact modifyStream_streamIds c it.id fun _ => rfl
  unfold handleHeadersBlock
  rcases hdecode : c.decodeHeadersBlock it with ⟨res, err, d⟩
  rw [hdecode] at hdecoded hids
  cases err with
  | some err => exact ⟨d, hdecoded, hids, .inl rfl⟩
  | none =>
      simp only
      split
      · exact ⟨d, hdecoded, hids, .inr (.inl rfl)⟩
      · split
        · exact ⟨d, hdecoded, hids, .inr (.inl rfl)⟩
        · split
          · exact ⟨d, hdecoded, hids, .inr (.inr rfl)⟩
          · split
            · split
              · exact ⟨d, hdecoded, hids, .inr (.inl rfl)⟩
              · split
                · exact ⟨d, hdecoded, hids, .inr (.inl rfl)⟩
                · split
                  · exact ⟨d, hdecoded, hids, .inr (.inl rfl)⟩
                  · refine ⟨_, hdecoded.trans (modifyStream_untouched d it.id ?_),
                      (modifyStream_streamIds d it.id ?_).trans hids, .inr (.inr rfl)⟩
                    · exact fun _ => rfl
                    · exact fun _ => rfl
            · refine ⟨_, hdecoded.trans (modifyStream_untouched d it.id ?_),
                (modifyStream_streamIds d it.id ?_).trans hids, .inr (.inr rfl)⟩
              · exact fun _ => rfl
              · exact fun _ => rfl

/-! ## Checking a frame header -/

theorem validateData_untouched (c : Client) (it : Stream) (header : FrameHeader) :
    Untouched c (c.validateData it header) := by
  unfold validateData
  simp only
  split
  · refine .trans (modifyStream_untouched c _ ?_) (closeOpenStream_untouched _ _ _ _)
    exact fun _ => rfl
  · split
    · refine .trans (modifyStream_untouched c _ ?_) (closeOpenStream_untouched _ _ _ _)
      exact fun _ => rfl
    · have h := (modifyStream_untouched c header.streamId (f := fun s => { s with
        receivedData := (it.receivedData + header.length) % 2 ^ 64 }) fun _ => rfl).trans
        (modifyStream_untouched _ header.streamId (f := fun s => { s with
          windowSize := wrapInt32 (s.windowSize - header.length) }) fun _ => rfl)
      exact ⟨rfl, rfl, rfl, rfl, rfl, rfl, h.streamIds⟩

theorem noteHeader_untouched (c : Client) (it : Stream) (header : FrameHeader) :
    Untouched c (c.noteHeader it header) :=
  modifyStream_untouched c _ fun _ => rfl

theorem validateOpenStream_untouched (c : Client) (it : Stream) (header : FrameHeader) :
    Untouched c (c.validateOpenStream it header).1 := by
  have hnote := noteHeader_untouched c it header
  unfold validateOpenStream
  simp only
  split
  · exact .refl c
  · split
    · exact .refl c
    · split
      · exact .refl c
      · split
        · exact hnote
        · split
          · exact ⟨rfl, rfl, rfl, rfl, rfl, rfl, hnote.streamIds⟩
          · split
            · exact hnote.trans (validateData_untouched _ _ _)
            · exact hnote

theorem validateFrameHeader_untouched (c : Client) (header : FrameHeader) :
    Untouched c (c.validateFrameHeader header).1 := by
  unfold validateFrameHeader
  split
  · exact .refl c
  · split
    · exact .refl c
    · split
      · split <;> exact .refl c
      · split
        · split
          · exact .refl c
          · exact closeOpenStream_untouched _ _ _ _
        · exact validateOpenStream_untouched _ _ _

end Client

end Rad.Http2
