import Rad.Http2.Frame

/-!
# What the frames of a header block carry
-/

namespace Rad.Http2

open Lib

/-! ## The frame header on the wire -/

theorem FrameHeader.length_buffer (fh : FrameHeader) : fh.buffer.length = neededWriteSize := by
  simp [buffer, neededWriteSize]

theorem FrameHeader.ofBuffer_buffer {fh : FrameHeader} (hlength : fh.length < 2 ^ 24) (hid : fh.streamId < 2 ^ 31)
    (htype : FrameType.ofByte fh.type.toByte = fh.type) : ofBuffer fh.buffer = fh := by
  have hl : ofBigEndian (fh.buffer.take 4) / 2 ^ 8 = fh.length := by
    simp only [buffer, toBigEndian, List.take_succ_cons, List.cons_append, List.nil_append, List.take_zero, ofBigEndian,
      List.length_cons, List.length_nil, UInt8.toNat_ofNat']
    have := fh.type.toByte.toNat_lt
    omega
  have hs : ofBigEndian ((fh.buffer.drop 5).take 4) % 2 ^ 31 = fh.streamId := by
    have htail : (fh.buffer.drop 5).take 4 = toBigEndian 4 (fh.streamId % 2 ^ 31) := by simp [buffer, toBigEndian]
    rw [htail, ofBigEndian_toBigEndian]
    omega
  have ht : fh.buffer.getD 3 0 = fh.type.toByte := by simp [buffer, toBigEndian]
  have hf : fh.buffer.getD 4 0 = fh.flags := by simp [buffer, toBigEndian]
  simp only [ofBuffer, hl, hs, ht, hf, htype]

/-! ## A frame and a header block -/

/-- The header that the peer reads. -/
abbrev readHeader (frame : Bytes × Bytes) : FrameHeader := .ofBuffer frame.1

abbrev EndsHeaders (frame : Bytes × Bytes) : Prop := hasFlag (readHeader frame).flags endHeadersFlag

/-- A frame of a stream whose payload is as long as its header says and within the limit. -/
structure WellFramed (id maxSize : Nat) (frame : Bytes × Bytes) : Prop where
  wire : frame.1.length = FrameHeader.neededWriteSize
  stream : (readHeader frame).streamId = id
  length : (readHeader frame).length = frame.2.length
  bounded : frame.2.length ≤ maxSize

/-- The frames carry the block: a HEADERS frame, CONTINUATION frames behind it, END_HEADERS on the last of them. -/
structure CarriesBlock (id maxSize : Nat) (emptyBody : Bool) (block : Bytes) (frames : List (Bytes × Bytes)) : Prop where
  wellFramed : ∀ frame ∈ frames, WellFramed id maxSize frame
  headersFirst : ∃ first rest, frames = first :: rest ∧ (readHeader first).type = .headers ∧
    (hasFlag (readHeader first).flags endStreamFlag = emptyBody) ∧ ∀ frame ∈ rest, (readHeader frame).type = .continuation
  endHeadersLast : ∃ init last, frames = init ++ [last] ∧ EndsHeaders last ∧ ∀ frame ∈ init, ¬EndsHeaders frame
  block : frames.flatMap Prod.snd = block

theorem readHeader_insert {fh : FrameHeader} {room : Nat} {hpackBuff : Bytes} (hlength : fh.length < 2 ^ 24)
    (hid : fh.streamId < 2 ^ 31) (htype : FrameType.ofByte fh.type.toByte = fh.type)
    (hroom : FrameHeader.neededWriteSize ≤ room) : readHeader (insertHeaderAndPayload fh room hpackBuff) = fh := by
  have hfull : ¬room < FrameHeader.neededWriteSize := by omega
  simp only [readHeader, insertHeaderAndPayload, FrameHeader.writeToBuffer, hfull, ↓reduceIte]
  exact FrameHeader.ofBuffer_buffer hlength hid htype

theorem wellFramed_insert {fh : FrameHeader} {room maxSize : Nat} {hpackBuff : Bytes} (hlength : fh.length < 2 ^ 24)
    (hid : fh.streamId < 2 ^ 31) (htype : FrameType.ofByte fh.type.toByte = fh.type)
    (hroom : FrameHeader.neededWriteSize ≤ room) (hmax : fh.length ≤ maxSize) (hbuff : fh.length ≤ hpackBuff.length) :
    WellFramed fh.streamId maxSize (insertHeaderAndPayload fh room hpackBuff) := by
  have hread : readHeader (insertHeaderAndPayload fh room hpackBuff) = fh := readHeader_insert hlength hid htype hroom
  have hpayload : (insertHeaderAndPayload fh room hpackBuff).2.length = fh.length := by
    simp [insertHeaderAndPayload, hbuff]
  refine ⟨?_, by rw [hread], by rw [hread, hpayload], by omega⟩
  have hfull : ¬room < FrameHeader.neededWriteSize := by omega
  simp only [insertHeaderAndPayload, FrameHeader.writeToBuffer, hfull, ↓reduceIte, FrameHeader.length_buffer]

/-! ## The loop -/

theorem framesCount_step {n maxSize : Nat} (hn : 0 < n) (hmax : 0 < maxSize) :
    framesCount n maxSize = framesCount (n - min maxSize n) maxSize + 1 := by
  unfold framesCount
  by_cases hle : maxSize ≤ n
  · obtain ⟨m, rfl⟩ := Nat.exists_eq_add_of_le hle
    have hrest : maxSize + m - min maxSize (maxSize + m) = m := by omega
    rw [hrest, Nat.add_mod_left, Nat.add_div_left _ hmax]
    omega
  · have hrest : n - min maxSize n = 0 := by omega
    have hlt : n < maxSize := by omega
    rw [hrest, Nat.div_eq_of_lt hlt, Nat.mod_eq_of_lt hlt]
    simp [Nat.ne_of_gt hn]

/-- CONTINUATION frames with the rest of a block: END_HEADERS is on the last of them. -/
structure CarriesRest (id maxSize : Nat) (block : Bytes) (frames : List (Bytes × Bytes)) : Prop where
  wellFramed : ∀ frame ∈ frames, WellFramed id maxSize frame
  continuation : ∀ frame ∈ frames, (readHeader frame).type = .continuation
  endHeadersLast : ∃ init last, frames = init ++ [last] ∧ EndsHeaders last ∧ ∀ frame ∈ init, ¬EndsHeaders frame
  block : frames.flatMap Prod.snd = block

theorem hasFlag_endHeaders_self : hasFlag endHeadersFlag endHeadersFlag = true := by decide

theorem hasFlag_endHeaders_zero : hasFlag 0 endHeadersFlag = false := by decide

theorem CarriesRest.cons {id maxSize : Nat} {payload block : Bytes} {header : Bytes} {frames : List (Bytes × Bytes)}
    (hframe : WellFramed id maxSize (header, payload)) (htype : (readHeader (header, payload)).type = .continuation)
    (hmore : ¬EndsHeaders (header, payload)) (hrest : CarriesRest id maxSize block frames) :
    CarriesRest id maxSize (payload ++ block) ((header, payload) :: frames) := by
  obtain ⟨hwell, hcont, ⟨init, last, rfl, hlast, hinit⟩, hblock⟩ := hrest
  refine ⟨List.forall_mem_cons.2 ⟨hframe, hwell⟩, List.forall_mem_cons.2 ⟨htype, hcont⟩,
    ⟨(header, payload) :: init, last, rfl, hlast, List.forall_mem_cons.2 ⟨hmore, hinit⟩⟩, ?_⟩
  rw [List.flatMap_cons, hblock]

theorem continuationFrames_nil (id maxSize : Nat) (hpos : 0 < maxSize) (room : Nat) :
    continuationFrames id maxSize hpos room [] = [] := by
  rw [continuationFrames, if_pos rfl]

theorem continuationFrames_carries {id maxSize : Nat} (hpos : 0 < maxSize) (hid : id < 2 ^ 31) (hmax : maxSize < 2 ^ 24)
    (room : Nat) (hpackBuff : Bytes) (hne : hpackBuff ≠ [])
    (hroom : framesCount hpackBuff.length maxSize * FrameHeader.neededWriteSize ≤ room) :
    CarriesRest id maxSize hpackBuff (continuationFrames id maxSize hpos room hpackBuff) := by
  -- by the recursion of the loop: the room left is one header for each frame that is still to come
  fun_induction continuationFrames id maxSize hpos room hpackBuff with
  | case1 room => exact absurd rfl hne
  | case2 room hpackBuff hne' writeSize lastContinuation fh ih =>
      have hlen : 0 < hpackBuff.length := List.length_pos_iff.2 hne
      have hcount := framesCount_step hlen hpos
      have hlength : fh.length = min maxSize hpackBuff.length := rfl
      have hfits : fh.length < 2 ^ 24 := by omega
      have hroom' : FrameHeader.neededWriteSize ≤ room := by
        rw [hcount, Nat.add_mul] at hroom; omega
      have hwell : WellFramed id maxSize (insertHeaderAndPayload fh room hpackBuff) :=
        wellFramed_insert hfits hid rfl hroom' (by omega) (by omega)
      have hread : readHeader (insertHeaderAndPayload fh room hpackBuff) = fh := readHeader_insert hfits hid rfl hroom'
      have hwritten : (fh.writeToBuffer room).length = FrameHeader.neededWriteSize := hwell.wire
      have htype : (readHeader (insertHeaderAndPayload fh room hpackBuff)).type = .continuation := by rw [hread]
      by_cases hlast : writeSize = hpackBuff.length
      · have hdone : hpackBuff.drop writeSize = [] := by rw [hlast, List.drop_length]
        have hends : EndsHeaders (insertHeaderAndPayload fh room hpackBuff) := by
          have hflags : fh.flags = endHeadersFlag := by simp [fh, lastContinuation, hlast]
          rw [EndsHeaders, hread, hflags]; exact hasFlag_endHeaders_self
        rw [hdone, continuationFrames_nil]
        refine ⟨by simpa using hwell, by simpa using htype, ⟨[], _, rfl, hends, by simp⟩, ?_⟩
        simp [insertHeaderAndPayload, fh, hlast]
      · have hrest : hpackBuff.drop writeSize ≠ [] := by
          rw [ne_eq, List.drop_eq_nil_iff]; omega
        have hmore : ¬EndsHeaders (insertHeaderAndPayload fh room hpackBuff) := by
          have hflags : fh.flags = 0 := by simp [fh, lastContinuation, hlast]
          rw [EndsHeaders, hread, hflags, hasFlag_endHeaders_zero]; decide
        have hleft : framesCount (hpackBuff.drop writeSize).length maxSize * FrameHeader.neededWriteSize ≤
            room - (fh.writeToBuffer room).length := by
          rw [hwritten, List.length_drop]
          rw [hcount, Nat.add_mul, Nat.one_mul] at hroom
          exact Nat.le_sub_of_add_le hroom
        have hcarries := ih hrest hleft
        have hpayload : hpackBuff = hpackBuff.take writeSize ++ hpackBuff.drop writeSize :=
          (List.take_append_drop _ _).symm
        conv_lhs => rw [hpayload]
        exact .cons hwell htype hmore hcarries

theorem CarriesRest.carriesBlock {id maxSize : Nat} {emptyBody : Bool} {payload block header : Bytes}
    {frames : List (Bytes × Bytes)} (hframe : WellFramed id maxSize (header, payload))
    (htype : (readHeader (header, payload)).type = .headers)
    (hstream : hasFlag (readHeader (header, payload)).flags endStreamFlag = emptyBody)
    (hmore : ¬EndsHeaders (header, payload)) (hrest : CarriesRest id maxSize block frames) :
    CarriesBlock id maxSize emptyBody (payload ++ block) ((header, payload) :: frames) := by
  obtain ⟨hwell, hcont, ⟨init, last, rfl, hlast, hinit⟩, hblock⟩ := hrest
  refine ⟨List.forall_mem_cons.2 ⟨hframe, hwell⟩, ⟨_, _, rfl, htype, hstream, hcont⟩,
    ⟨(header, payload) :: init, last, rfl, hlast, List.forall_mem_cons.2 ⟨hmore, hinit⟩⟩, ?_⟩
  rw [List.flatMap_cons, hblock]

/-! ## The whole block -/

section Block

variable {id maxSize : Nat} (hpos : 0 < maxSize) (hid : id < 2 ^ 31) (hmax : maxSize < 2 ^ 24) (emptyBody : Bool)
  {block : Bytes}

/-- The header of the frame that does not hold the whole block. -/
abbrev splitHeader (id maxSize : Nat) (emptyBody : Bool) : FrameHeader :=
  { streamId := id, type := .headers, flags := if emptyBody then endStreamFlag else 0, length := maxSize }

theorem hasFlag_split : hasFlag (if emptyBody then endStreamFlag else 0) endHeadersFlag = false ∧
    hasFlag (if emptyBody then endStreamFlag else 0) endStreamFlag = emptyBody := by
  cases emptyBody <;> decide

theorem hasFlag_single :
    hasFlag (if emptyBody then endHeadersFlag ||| endStreamFlag else endHeadersFlag) endHeadersFlag = true ∧
    hasFlag (if emptyBody then endHeadersFlag ||| endStreamFlag else endHeadersFlag) endStreamFlag = emptyBody := by
  cases emptyBody <;> decide

include hid hmax in
theorem blockFrames_single (hlt : block.length < maxSize) :
    CarriesBlock id maxSize emptyBody block (blockFrames id maxSize hpos emptyBody block) := by
  rw [blockFrames, if_pos hlt]
  let fh : FrameHeader := {
    streamId := id, type := .headers, length := block.length,
    flags := if emptyBody then endHeadersFlag ||| endStreamFlag else endHeadersFlag }
  have hread : readHeader (fh.buffer, block) = fh :=
    FrameHeader.ofBuffer_buffer (show block.length < 2 ^ 24 by omega) hid rfl
  have hflags : hasFlag fh.flags endHeadersFlag = true ∧ hasFlag fh.flags endStreamFlag = emptyBody :=
    hasFlag_single emptyBody
  have hframe : WellFramed id maxSize (fh.buffer, block) :=
    ⟨fh.length_buffer, by rw [hread], by rw [hread], Nat.le_of_lt hlt⟩
  have hends : EndsHeaders (fh.buffer, block) := by rw [EndsHeaders, hread]; exact hflags.1
  exact ⟨by simpa using hframe, ⟨_, [], rfl, by rw [hread], by rw [hread]; exact hflags.2, by simp⟩,
    ⟨[], _, rfl, hends, by simp⟩, by simp⟩

theorem neededWriteSize_le_room (hpos : 0 < maxSize) (hle : maxSize ≤ block.length) :
    framesCount (block.drop maxSize).length maxSize * FrameHeader.neededWriteSize + FrameHeader.neededWriteSize =
      framesCount block.length maxSize * FrameHeader.neededWriteSize := by
  have hrest : (block.drop maxSize).length = block.length - min maxSize block.length := by
    rw [List.length_drop]; omega
  rw [framesCount_step (show 0 < block.length by omega) hpos, hrest, Nat.add_mul, Nat.one_mul]

include hid hmax in
theorem blockFrames_split (hlt : maxSize < block.length) :
    CarriesBlock id maxSize emptyBody block (blockFrames id maxSize hpos emptyBody block) := by
  rw [blockFrames, if_neg (by omega)]
  have hroom := neededWriteSize_le_room hpos (Nat.le_of_lt hlt)
  set room := framesCount block.length maxSize * FrameHeader.neededWriteSize
  have hfits : (splitHeader id maxSize emptyBody).length < 2 ^ 24 := hmax
  have hread : readHeader (insertHeaderAndPayload (splitHeader id maxSize emptyBody) room block) =
      splitHeader id maxSize emptyBody := readHeader_insert hfits hid rfl (by omega)
  have hwell : WellFramed id maxSize (insertHeaderAndPayload (splitHeader id maxSize emptyBody) room block) :=
    wellFramed_insert hfits hid rfl (by omega) (Nat.le_refl _) (Nat.le_of_lt hlt)
  have hwritten : ((splitHeader id maxSize emptyBody).writeToBuffer room).length = FrameHeader.neededWriteSize :=
    hwell.wire
  have hne : block.drop maxSize ≠ [] := by rw [ne_eq, List.drop_eq_nil_iff]; omega
  have hrest : CarriesRest id maxSize (block.drop maxSize)
      (continuationFrames id maxSize hpos (room - ((splitHeader id maxSize emptyBody).writeToBuffer room).length)
        (block.drop maxSize)) :=
    continuationFrames_carries hpos hid hmax _ _ hne (by omega)
  conv_lhs => rw [← List.take_append_drop maxSize block]
  have htype : (readHeader (insertHeaderAndPayload (splitHeader id maxSize emptyBody) room block)).type = .headers := by
    rw [hread]
  have hstream : hasFlag (readHeader (insertHeaderAndPayload (splitHeader id maxSize emptyBody) room block)).flags
      endStreamFlag = emptyBody := by
    rw [hread, (hasFlag_split emptyBody).2]
  have hmore : ¬EndsHeaders (insertHeaderAndPayload (splitHeader id maxSize emptyBody) room block) := by
    rw [EndsHeaders, hread, (hasFlag_split emptyBody).1]
    decide
  exact CarriesRest.carriesBlock hwell htype hstream hmore hrest

include hid hmax in
/-- A block of exactly the limit goes into one HEADERS frame that does not end the block. -/
theorem blockFrames_exact (heq : block.length = maxSize) :
    ¬CarriesBlock id maxSize emptyBody block (blockFrames id maxSize hpos emptyBody block) := by
  rintro ⟨-, -, ⟨init, last, hframes, hends, -⟩, -⟩
  have hroom := neededWriteSize_le_room hpos (Nat.le_of_eq heq.symm)
  rw [blockFrames, if_neg (by omega), List.drop_eq_nil_of_le (Nat.le_of_eq heq)] at hframes
  simp only [continuationFrames_nil] at hframes
  set room := framesCount block.length maxSize * FrameHeader.neededWriteSize
  have hread : readHeader (insertHeaderAndPayload (splitHeader id maxSize emptyBody) room block) =
      splitHeader id maxSize emptyBody := readHeader_insert hmax hid rfl (Nat.le_of_add_left_le (Nat.le_of_eq hroom))
  have hlast : last = insertHeaderAndPayload (splitHeader id maxSize emptyBody) room block := by
    have := congrArg List.getLast? hframes
    simpa using this.symm
  rw [hlast, EndsHeaders, hread, (hasFlag_split emptyBody).1] at hends
  exact absurd hends (by decide)

end Block

end Rad.Http2
