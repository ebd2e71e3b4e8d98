import Rad.Http2.Client.Lemmas.Bodies

/-!
# The phases of a response

The phase of a response is spread over the flags of its stream and the frame that the parser is in. What the flags say of
the frames received so far is an invariant of the runs.
-/

namespace Rad.Http2

open Lib Client

/-! ## Steps that have nothing to do with the phase -/

/-- A stream after a step that leaves the phase of its response as it is. -/
structure SamePhase (new old : Stream) : Prop where
  id : new.id = old.id
  wantsHeaders : new.wantsHeaders = old.wantsHeaders
  receivedFinalRes : new.receivedFinalRes = old.receivedFinalRes
  receivedTrailers : new.receivedTrailers = old.receivedTrailers
  remote : new.isHalfClosedRemote = old.isHalfClosedRemote

theorem SamePhase.refl (it : Stream) : SamePhase it it := ⟨rfl, rfl, rfl, rfl, rfl⟩

/-- A stream after a step that has nothing to do with its response. -/
structure SameResponse (new old : Stream) : Prop extends SamePhase new old where
  resBuff : new.resBuff = old.resBuff

instance : Std.Refl SameResponse := ⟨fun it => ⟨.refl it, rfl⟩⟩

instance : IsTrans Stream SameResponse :=
  ⟨fun _ _ _ h h' => ⟨⟨h.id.trans h'.id, h.wantsHeaders.trans h'.wantsHeaders,
    h.receivedFinalRes.trans h'.receivedFinalRes, h.receivedTrailers.trans h'.receivedTrailers,
    h.remote.trans h'.remote⟩, h.resBuff.trans h'.resBuff⟩⟩

theorem staysOpen_sameResponse {s s' : Stream} (h : staysOpen s = some s') : SameResponse s' s := by
  unfold staysOpen at h
  split at h
  · rw [← Option.some.inj h]
    exact refl _
  · split at h
    · cases h
    · rename_i hclosed
      have hopen : s.state = .open := by
        by_contra hne
        exact hclosed (by simp [Stream.sendES, hne, Stream.isClosed])
      rw [← Option.some.inj h]
      exact ⟨⟨rfl, rfl, rfl, rfl, by simp [Stream.sendES, hopen, Stream.isHalfClosedRemote]⟩, rfl⟩

section Related

variable {R : Stream → Stream → Prop} [Std.Refl R] [IsTrans Stream R]

theorem Emits.related {n : Nat} {l l' : List Stream} {frames : List (FrameHeader × Bytes)} (h : Emits n l frames l')
    (hbody : ∀ s body, R { s with body } s) : List.SublistForall₂ R l' l := by
  induction h with
  | start => exact refl l
  | chunk h hchunk ih => exact IsTrans.trans _ _ _ (sublistForall₂_replace (hbody _ _) _ _) ih

/-- What the steps between two passes change of the open streams: bodies are sent, windows enlarged and streams closed. -/
theorem Action.perform_related {c : Client} (hids : c.streamIds.Nodup) {a : Action} (hopens : a ≠ .sendRequest)
    (hbody : ∀ s body, R { s with body } s) (hwindow : ∀ s windowSize, R { s with windowSize } s)
    (hstays : ∀ s s', staysOpen s = some s' → R s' s) :
    List.SublistForall₂ R (a.perform c).1.openStreams c.openStreams := by
  cases a with
  | sendRequest => exact absurd rfl hopens
  | flush =>
      simp only [Action.perform, preparePendingSendQueue]
      split
      · exact refl _
      · refine sublistForall₂_map fun r _ => ?_
        split
        · exact hwindow _ _
        · exact refl _
  | sendBodies => exact (collectDataFrames_emits c).related hbody
  | finishBodies =>
      rw [Action.perform, (finishBodies_eq hids).1]
      exact sublistForall₂_filterMap fun s _ s' hs' => hstays s s' hs'
  | abandon id => exact (List.eraseIdx_sublist _ _).sublistForall₂
  | maxHeadersSize n =>
      obtain ⟨sframe, heq⟩ := maxHeadersSize_eq c n
      rw [Action.perform, heq]
      exact refl _
  | asyncClose ec =>
      simp only [Action.perform, Client.asyncClose]
      split <;> exact refl _
  | _ => exact refl _

end Related

theorem Action.perform_phase {c : Client} (hids : c.streamIds.Nodup) {a : Action} (hopens : a ≠ .sendRequest) :
    List.SublistForall₂ SameResponse (a.perform c).1.openStreams c.openStreams :=
  Action.perform_related hids hopens (fun _ _ => ⟨⟨rfl, rfl, rfl, rfl, rfl⟩, rfl⟩)
    (fun _ _ => ⟨⟨rfl, rfl, rfl, rfl, rfl⟩, rfl⟩) fun _ _ => staysOpen_sameResponse

/-! ## The frame that the parser is in -/

/-- The parser is in a header block of the stream, whose last header is given. -/
structure InBlock (c : Client) (id : Nat) (header : FrameHeader) : Prop where
  lastHeader : c.lastHeader = some header
  streamId : header.streamId = id
  type : header.type = .headers ∨ header.type = .continuation
  unfinished : c.parserStage ≠ .header ∨ hasFlag header.flags endHeadersFlag = false

/-- The parser is in a DATA frame of the stream. -/
structure InData (c : Client) (id : Nat) : Prop where
  lastHeader : ∃ header, c.lastHeader = some header ∧ header.streamId = id ∧ header.type = .data
  stage : c.parserStage ≠ .header

/-- What the flags of an open stream say of the frames received so far. -/
structure Phases (xs : List Step) (c : Client) (it : Stream) : Prop where
  final : it.receivedFinalRes = true ↔ ∃ y ∈ xs, y.finalAccepted it.id = true
  responded : it.receivedFinalRes = true → it.wantsHeaders = false
  block : ∀ header, InBlock c it.id header → it.wantsHeaders = false ∧ it.isHalfClosedRemote = false ∧
    (it.receivedFinalRes = true → it.receivedTrailers = true)
  awaits : it.wantsHeaders = false → it.receivedFinalRes = true ∨ ∃ header, InBlock c it.id header
  trailers : it.receivedTrailers = true → it.receivedFinalRes = true ∧
    (it.isHalfClosedRemote = true ∨ ∃ header, InBlock c it.id header ∧ hasFlag header.flags endStreamFlag = true)
  data : InData c it.id → it.isHalfClosedRemote = false ∧ it.wantsHeaders = false
  ended : ∀ y ∈ xs, y.endReceived it.id = true → it.isHalfClosedRemote = true

section Phases

variable {xs : List Step} {x : Step} {c c' : Client} {it it' : Stream}

/-- A step after which the parser is in a header block of the stream if it was before, and that is not the end of one. -/
theorem Phases.congr (h : Phases xs c it) (hsame : SamePhase it' it)
    (hblock : (∃ header, InBlock c' it.id header) ↔ ∃ header, InBlock c it.id header)
    (hends : (∃ header, InBlock c it.id header ∧ hasFlag header.flags endStreamFlag = true) →
      ∃ header, InBlock c' it.id header ∧ hasFlag header.flags endStreamFlag = true)
    (hdata : InData c' it.id → it.isHalfClosedRemote = false ∧ it.wantsHeaders = false)
    (hfinal : x.finalAccepted it.id = false) (hend : x.endReceived it.id = false) : Phases (xs ++ [x]) c' it' := by
  refine ⟨?_, ?_, ?_, ?_, ?_, ?_, ?_⟩
  · rw [hsame.receivedFinalRes, hsame.id, h.final]
    simp [or_and_right, exists_or, hfinal]
  · rw [hsame.receivedFinalRes, hsame.wantsHeaders]
    exact h.responded
  · rw [hsame.id, hsame.wantsHeaders, hsame.remote, hsame.receivedFinalRes, hsame.receivedTrailers]
    intro header hin
    obtain ⟨header, hin⟩ := hblock.1 ⟨header, hin⟩
    exact h.block header hin
  · rw [hsame.id, hsame.wantsHeaders, hsame.receivedFinalRes, hblock]
    exact h.awaits
  · rw [hsame.id, hsame.receivedTrailers, hsame.receivedFinalRes, hsame.remote]
    exact fun htrailers => (h.trailers htrailers).imp_right fun hor => hor.imp_right hends
  · rw [hsame.id, hsame.remote, hsame.wantsHeaders]
    exact hdata
  · rw [hsame.id, hsame.remote]
    intro y hy hyend
    rcases List.mem_append.1 hy with hy | hy
    · exact h.ended y hy hyend
    · rw [List.mem_singleton.1 hy, hend] at hyend
      cases hyend

/-- The same when the parser is in no header block of the stream. -/
theorem Phases.congr_of_not (h : Phases xs c it) (hsame : SamePhase it' it)
    (hbefore : ∀ header, ¬InBlock c it.id header) (hafter : ∀ header, ¬InBlock c' it.id header)
    (hdata : InData c' it.id → it.isHalfClosedRemote = false ∧ it.wantsHeaders = false)
    (hfinal : x.finalAccepted it.id = false) (hend : x.endReceived it.id = false) : Phases (xs ++ [x]) c' it' :=
  h.congr hsame ⟨fun ⟨header, hin⟩ => absurd hin (hafter header), fun ⟨header, hin⟩ => absurd hin (hbefore header)⟩
    (fun ⟨header, hin⟩ => absurd hin.1 (hbefore header)) hdata hfinal hend

/-! ## Frames of other streams -/

theorem Step.events_of_ne (id : Nat)
    (h : ∀ header, x.frameReceived = some header → header.streamId ≠ id ∨ ¬header.isReadInParts) :
    x.finalAccepted id = false ∧ x.trailersAccepted id = false ∧ x.endReceived id = false := by
  have hblock : x.blockAccepted id = none := by
    unfold Step.blockAccepted
    split
    · rename_i header it hframe hfind
      refine if_neg fun hcond => (h header hframe).elim (fun hne => hne hcond.1) fun hparts => hparts (.inr hcond.2.1)
    · rfl
  refine ⟨by simp [Step.finalAccepted, hblock], by simp [Step.trailersAccepted, hblock], ?_⟩
  unfold Step.endReceived
  cases hframe : x.frameReceived with
  | none => rfl
  | some header =>
      rcases h header hframe with hne | hparts
      · simp [hne]
      · have htypes : header.type ≠ .data ∧ header.type ≠ .headers ∧ header.type ≠ .continuation :=
          ⟨fun h => hparts (.inl h), fun h => hparts (.inr (.inl h)), fun h => hparts (.inr (.inr h))⟩
        simp [htypes]

theorem inBlock_congr (hlast : c'.lastHeader = c.lastHeader) (hstage : c'.parserStage = .header ↔ c.parserStage = .header)
    {id : Nat} {header : FrameHeader} : InBlock c' id header ↔ InBlock c id header := by
  constructor
  · rintro ⟨h₁, h₂, h₃, h₄⟩
    exact ⟨hlast ▸ h₁, h₂, h₃, by rwa [ne_eq, ← hstage]⟩
  · rintro ⟨h₁, h₂, h₃, h₄⟩
    exact ⟨hlast.trans h₁, h₂, h₃, by rwa [ne_eq, hstage]⟩

theorem inData_congr (hlast : c'.lastHeader = c.lastHeader) (hstage : c'.parserStage = .header ↔ c.parserStage = .header)
    {id : Nat} : InData c' id ↔ InData c id := by
  constructor
  · rintro ⟨h₁, h₂⟩
    exact ⟨hlast ▸ h₁, by rwa [ne_eq, ← hstage]⟩
  · rintro ⟨h₁, h₂⟩
    exact ⟨hlast ▸ h₁, by rwa [ne_eq, hstage]⟩

theorem Phases.client (h : Phases xs c it) (hlast : c'.lastHeader = c.lastHeader)
    (hstage : c'.parserStage = c.parserStage) : Phases xs c' it := by
  have hblock := @inBlock_congr c c' hlast (by rw [hstage])
  refine ⟨h.final, h.responded, ?_, ?_, ?_, fun hin => h.data ((inData_congr hlast (by rw [hstage])).1 hin), h.ended⟩
  · simp only [hblock]
    exact h.block
  · simp only [hblock]
    exact h.awaits
  · simp only [hblock]
    exact h.trailers

/-- A step that leaves the parser in the frame in which it was. -/
theorem Phases.of_spared (h : Phases xs c it) (hsame : SamePhase it' it) (hlast : c'.lastHeader = c.lastHeader)
    (hstage : c'.parserStage = .header ↔ c.parserStage = .header) (hframe : x.frameReceived = none) :
    Phases (xs ++ [x]) c' it' := by
  have hevents := Step.events_of_ne (x := x) it.id fun header h => by rw [hframe] at h; cases h
  have hblock := @inBlock_congr c c' hlast hstage it.id
  exact h.congr hsame (by simp only [hblock]) (by simp only [hblock]; exact fun h => h)
    (fun hin => h.data ((inData_congr hlast hstage).1 hin)) hevents.1 hevents.2.2

/-- A stream that is opened with an identifier that was not in use. -/
theorem phases_opened {r : Stream} {id : Nat} {windowSize : Int} (hr : r.isRequest = true)
    (hevents : ∀ y ∈ xs, y.finalAccepted id = false ∧ y.endReceived id = false)
    (hlast : ∀ header, c.lastHeader = some header → header.streamId ≠ id) :
    Phases xs c (openedStream r id windowSize) := by
  simp only [Stream.isRequest, Bool.and_eq_true, decide_eq_true_eq, Bool.not_eq_true'] at hr
  obtain ⟨⟨⟨⟨⟨-, -⟩, -⟩, hwants⟩, hfinal⟩, htrailers⟩ := hr
  have hflags : (openedStream r id windowSize).id = id ∧ (openedStream r id windowSize).wantsHeaders = true ∧
      (openedStream r id windowSize).receivedFinalRes = false ∧ (openedStream r id windowSize).receivedTrailers = false ∧
      (openedStream r id windowSize).isHalfClosedRemote = false := by
    refine ⟨?_, ?_, ?_, ?_, ?_⟩
    · unfold openedStream; dsimp only; split <;> rfl
    · unfold openedStream; dsimp only; split <;> exact hwants
    · unfold openedStream; dsimp only; split <;> exact hfinal
    · unfold openedStream; dsimp only; split <;> exact htrailers
    · rw [Stream.isHalfClosedRemote, openedStream_state]
      split <;> rfl
  obtain ⟨hid, hwants, hfinal, htrailers, hremote⟩ := hflags
  refine ⟨?_, ?_, ?_, ?_, ?_, ?_, ?_⟩
  · rw [hid, hfinal]
    constructor
    · exact fun h => nomatch h
    · rintro ⟨y, hy, hfinal⟩
      rw [(hevents y hy).1] at hfinal
      cases hfinal
  · rw [hfinal]
    exact fun h => by cases h
  · rw [hid]
    exact fun header hin => absurd hin.streamId (hlast header hin.lastHeader)
  · rw [hwants]
    exact fun h => by cases h
  · rw [htrailers]
    exact fun h => by cases h
  · rw [hid]
    rintro ⟨⟨header, hheader, hstream, -⟩, -⟩
    exact absurd hstream (hlast header hheader)
  · rw [hid]
    intro y hy hend
    rw [(hevents y hy).2] at hend
    cases hend

/-! ## Frame headers -/

/-- A CONTINUATION frame follows a header block that is not at its end, and nothing else does. -/
theorem FrameHeader.continuation_iff {header last : FrameHeader} {maxSize lastClientId lastServerId : Nat}
    (h : header.isValidFrame (some last) maxSize false false lastClientId lastServerId = true) :
    if hasFlag last.flags endHeadersFlag = false ∧ (last.type = .headers ∨ last.type = .continuation) then
      header.type = .continuation ∧ header.streamId = last.streamId
    else header.type ≠ .continuation := by
  unfold FrameHeader.isValidFrame at h
  split at h
  · cases h
  · split at h
    · cases h
    · split at h
      · cases h
      · split at h
        · cases h
        · dsimp only at h
          split at h
          · rename_i hcond
            rw [if_pos (by simpa using hcond)]
            simpa using h
          · rename_i hcond
            rw [if_neg (by simpa using hcond)]
            simpa using h

/-- In front of a frame header, the parser is in a header block of the stream if a CONTINUATION frame of it follows. -/
theorem inBlock_iff {header : FrameHeader} {id : Nat} (hstage : c.parserStage = .header)
    (hvalid : header.isValidFrame c.lastHeader c.selfMaxPayloadSize false false c.lastClientId c.lastServerId = true) :
    (∃ last, InBlock c id last) ↔ header.type = .continuation ∧ header.streamId = id := by
  constructor
  · rintro ⟨last, hlast, hid, htype, hunfinished⟩
    rw [hlast] at hvalid
    have horder := FrameHeader.continuation_iff hvalid
    rw [if_pos ⟨hunfinished.resolve_left fun h => h hstage, htype⟩] at horder
    exact ⟨horder.1, horder.2.trans hid⟩
  · rintro ⟨hcont, hid⟩
    cases hlast : c.lastHeader with
    | none =>
        rw [hlast] at hvalid
        have hfirst : header.type = .settings := by
          simp only [FrameHeader.isValidFrame] at hvalid
          by_contra hne
          simp [hne] at hvalid
        rw [hcont] at hfirst
        cases hfirst
    | some last =>
        rw [hlast] at hvalid
        have horder := FrameHeader.continuation_iff hvalid
        split at horder
        · rename_i hcond
          exact ⟨last, hlast, horder.2.symm.trans hid, hcond.2, .inr hcond.1⟩
        · exact absurd hcont horder

theorem hasFlag_or_self (flags flag : UInt8) : hasFlag (flags ||| flag) flag = true := by
  rw [hasFlag, beq_iff_eq]
  apply UInt8.eq_of_toBitVec_eq
  ext i hi
  simp
  grind

/-- END_STREAM of a HEADERS frame goes over to the CONTINUATION frames of its block. -/
theorem acceptedHeader_endStream {header last : FrameHeader} (hcont : header.type = .continuation)
    (htype : last.type = .headers ∨ last.type = .continuation) (hend : hasFlag last.flags endStreamFlag = true) :
    hasFlag (acceptedHeader (some last) header).flags endStreamFlag = true := by
  have hlast : ¬(last.type ≠ .headers ∧ last.type ≠ .continuation) := fun h => htype.elim h.1 h.2
  unfold acceptedHeader copyEndStreamFlagFromHeadersToContinuation
  simp only [hcont, ne_eq, hlast, not_true_eq_false, if_false]
  rw [hasFlag, beq_iff_eq] at hend
  rw [hend]
  exact hasFlag_or_self _ _

/-- The header of a HEADERS frame: a response is awaited, or the trailers behind the final one. -/
theorem Phases.of_headers (h : Phases xs c it) {header : FrameHeader} (hremote : it.isHalfClosedRemote = false)
    (hheaders : header.type = .headers) (hid : header.streamId = it.id)
    (hphase : it.wantsHeaders = true ∨ it.receivedFinalRes = true ∧ it.receivedTrailers = false ∧
      hasFlag header.flags endStreamFlag = true)
    (hlast : c'.lastHeader = some (acceptedHeader c.lastHeader header)) (hstage : c'.parserStage ≠ .header)
    (hfinal : x.finalAccepted it.id = false) (hend : x.endReceived it.id = false) :
    Phases (xs ++ [x]) c' (notedStream it header) := by
  have hblock : InBlock c' it.id (acceptedHeader c.lastHeader header) :=
    ⟨hlast, (acceptedHeader_streamId _ _).trans hid, .inl ((acceptedHeader_type _ _).trans hheaders), .inl hstage⟩
  have hwants : (notedStream it header).wantsHeaders = false := by simp [notedStream, hheaders]
  have htrailers : (notedStream it header).receivedTrailers = (it.receivedTrailers || !it.wantsHeaders) := by
    simp [notedStream, hheaders]
  refine ⟨?_, fun _ => hwants, fun _ _ => ⟨hwants, hremote, fun hres => ?_⟩, fun _ => .inr ⟨_, hblock⟩, fun ht => ?_,
    fun _ => ⟨hremote, hwants⟩, fun y hy hyend => ?_⟩
  · refine h.final.trans ?_
    simp [or_and_right, exists_or, hfinal, notedStream]
  · rw [htrailers, h.responded hres]
    simp
  · rw [htrailers, Bool.or_eq_true, Bool.not_eq_true'] at ht
    rcases hphase with hwanted | ⟨hres, -, hes⟩
    · -- a stream that awaits a response has received neither the final one nor trailers
      rw [hwanted] at ht
      have hres := (h.trailers (ht.resolve_right (by simp))).1
      rw [h.responded hres] at hwanted
      cases hwanted
    · refine ⟨hres, .inr ⟨_, hblock, ?_⟩⟩
      rw [acceptedHeader_flags _ _ (by simp [hheaders]), hheaders]
      exact (hasFlag_and (by decide) _).trans hes
  · rcases List.mem_append.1 hy with hy | hy
    · have := h.ended y hy hyend
      rw [hremote] at this
      cases this
    · rw [List.mem_singleton.1 hy] at hyend
      exact absurd hyend (by rw [show (notedStream it header).id = it.id from rfl, hend]; simp)

/-- The header of a CONTINUATION frame, or of one that has nothing to do with the response. -/
theorem Phases.of_other (h : Phases xs c it) {header : FrameHeader} (hheaders : header.type ≠ .headers)
    (hdata : header.type ≠ .data) (hid : header.streamId = it.id)
    (hstage : c.parserStage = .header)
    (hvalid : header.isValidFrame c.lastHeader c.selfMaxPayloadSize false false c.lastClientId c.lastServerId = true)
    (hlast : c'.lastHeader = some (acceptedHeader c.lastHeader header)) (hstage' : c'.parserStage ≠ .header)
    (hfinal : x.finalAccepted it.id = false) (hend : x.endReceived it.id = false) :
    Phases (xs ++ [x]) c' (notedStream it header) := by
  have hsame : SamePhase (notedStream it header) it := by
    refine ⟨rfl, ?_, rfl, ?_, rfl⟩
    · simp [notedStream, hheaders]
    · simp [notedStream, hheaders]
  have hafter : (∃ last, InBlock c' it.id last) ↔ header.type = .continuation := by
    constructor
    · rintro ⟨last, hlast', -, htype, -⟩
      obtain rfl := Option.some.inj (hlast.symm.trans hlast')
      rw [acceptedHeader_type] at htype
      exact htype.resolve_left hheaders
    · intro hcont
      exact ⟨_, hlast, (acceptedHeader_streamId _ _).trans hid, .inr ((acceptedHeader_type _ _).trans hcont), .inl hstage'⟩
  have hbefore : (∃ last, InBlock c it.id last) ↔ header.type = .continuation := by
    rw [inBlock_iff hstage hvalid]
    exact ⟨fun h => h.1, fun h => ⟨h, hid⟩⟩
  have hnoData : ¬InData c' it.id := by
    rintro ⟨⟨last, hlast', -, htype⟩, -⟩
    obtain rfl := Option.some.inj (hlast.symm.trans hlast')
    exact hdata ((acceptedHeader_type _ _).symm.trans htype)
  refine h.congr hsame (hafter.trans hbefore.symm) ?_ (fun hin => absurd hin hnoData) hfinal hend
  rintro ⟨last, hin, hes⟩
  have hcont := hbefore.1 ⟨last, hin⟩
  refine ⟨acceptedHeader c.lastHeader header, ⟨hlast, (acceptedHeader_streamId _ _).trans hid,
    .inr ((acceptedHeader_type _ _).trans hcont), .inl hstage'⟩, ?_⟩
  rw [hin.lastHeader]
  exact acceptedHeader_endStream hcont hin.type hes

theorem Client.HeaderCase.phases {header : FrameHeader} {d : Client} (h : HeaderCase c header d)
    (hids : c.streamIds.Nodup) (hphases : ∀ it ∈ c.openStreams, Phases xs c it)
    (hstage : c.parserStage = .header)
    (hvalid : header.isValidFrame c.lastHeader c.selfMaxPayloadSize false false c.lastClientId c.lastServerId = true)
    (hopen : c'.openStreams = d.openStreams) (hlast : c'.lastHeader = some (acceptedHeader c.lastHeader header))
    (hstage' : c'.parserStage ≠ .header) (hframe : x.frameReceived = none) :
    ∀ it' ∈ c'.openStreams, Phases (xs ++ [x]) c' it' := by
  have hevents : ∀ id, x.finalAccepted id = false ∧ x.endReceived id = false := by
    intro id
    have := Step.events_of_ne (x := x) id fun header h => by rw [hframe] at h; cases h
    exact ⟨this.1, this.2.2⟩
  have htype := acceptedHeader_type c.lastHeader header
  have hstreamId := acceptedHeader_streamId c.lastHeader header
  have hafter : ∀ {id last}, InBlock c' id last →
      header.streamId = id ∧ (header.type = .headers ∨ header.type = .continuation) := by
    rintro id last ⟨hlast', hid, htype', -⟩
    obtain rfl := Option.some.inj (hlast.symm.trans hlast')
    rw [htype] at htype'
    exact ⟨hstreamId.symm.trans hid, htype'⟩
  have hafterData : ∀ {id}, InData c' id → header.streamId = id ∧ header.type = .data := by
    rintro id ⟨⟨last, hlast', hid, htype'⟩, -⟩
    obtain rfl := Option.some.inj (hlast.symm.trans hlast')
    exact ⟨hstreamId.symm.trans hid, htype.symm.trans htype'⟩
  have hbefore : ∀ {id}, ¬(header.type = .continuation ∧ header.streamId = id) → ∀ last, ¬InBlock c id last :=
    fun hnot last hin => hnot ((inBlock_iff hstage hvalid).1 ⟨last, hin⟩)
  -- a stream with another identifier
  have hother : ∀ it' ∈ c.openStreams, it'.id ≠ header.streamId → Phases (xs ++ [x]) c' it' := by
    intro it' hit' hne
    refine (hphases it' hit').congr_of_not (.refl it') (hbefore fun h => hne h.2.symm)
      (fun last hin => hne (hafter hin).1.symm) (fun hin => absurd (hafterData hin).1.symm hne) (hevents _).1 (hevents _).2
  intro it' hit'
  rw [hopen] at hit'
  cases h with
  | quiet hparts hopen' =>
      rw [hopen'] at hit'
      refine (hphases it' hit').congr_of_not (.refl it') (hbefore fun h => hparts (.inr (.inr h.1)))
        (fun last hin => hparts (.inr (hafter hin).2)) (fun hin => absurd (.inl (hafterData hin).2) hparts)
        (hevents _).1 (hevents _).2
  | late it hfind hremote hmay h => exact hother it' (h.mem hids hit').2 (h.mem hids hit').1
  | overlong it hfind hremote hdata hphase hfits h => exact hother it' (h.mem hids hit').2 (h.mem hids hit').1
  | headers it hfind hremote hheaders hphase h =>
      have hid : it.id = header.streamId := findStream_id hfind
      rcases h.mem hid (by rw [hfind]; rfl) hids hit' with rfl | ⟨hne, hold⟩
      · exact (hphases it (List.mem_of_find?_eq_some hfind)).of_headers hremote hheaders hid.symm hphase hlast hstage'
          (hevents _).1 (hevents _).2
      · exact hother it' hold hne
  | data it hfind hremote hdata hphase hfits h =>
      rcases h.mem (findStream_id hfind : it.id = header.streamId) (by rw [hfind]; rfl) hids hit' with rfl | ⟨hne, hold⟩
      · have hsame : SamePhase (noteData it header (notedStream it header)) it := by
          refine ⟨rfl, ?_, rfl, ?_, rfl⟩
          · simp [noteData, notedStream, hdata]
          · simp [noteData, notedStream, hdata]
        refine (hphases it (List.mem_of_find?_eq_some hfind)).congr_of_not hsame (hbefore fun h => by simp [hdata] at h)
          (fun last hin => ?_) (fun _ => ⟨hremote, hphase⟩) (hevents _).1 (hevents _).2
        rcases (hafter hin).2 with h | h <;> simp [hdata] at h
      · exact hother it' hold hne
  | other it hfind hremote hheaders hdata hphase h =>
      have hid : it.id = header.streamId := findStream_id hfind
      rcases h.mem hid (by rw [hfind]; rfl) hids hit' with rfl | ⟨hne, hold⟩
      · exact (hphases it (List.mem_of_find?_eq_some hfind)).of_other hheaders hdata hid.symm hstage hvalid hlast hstage'
          (hevents _).1 (hevents _).2
      · exact hother it' hold hne

/-! ## Payloads -/

theorem hasFlag_or {mask flag : UInt8} (hmask : mask &&& flag = 0) (flags : UInt8) :
    hasFlag (flags ||| mask) flag = hasFlag flags flag := by
  have hor : (flags ||| mask) &&& flag = flags &&& flag ||| mask &&& flag := by
    apply UInt8.eq_of_toBitVec_eq
    ext i hi
    simp
    grind
  rw [hasFlag, hasFlag, hor, hmask, UInt8.or_zero]

/-- The stream behind a frame, if it is still open. -/
theorem afterFlags_eq {flags : UInt8} (hopen : (afterFlags flags it).isClosed = false) :
    afterFlags flags it =
      if hasFlag flags endStreamFlag && hasFlag flags endHeadersFlag then { it with state := .halfClosedRemote } else it := by
  unfold afterFlags at hopen ⊢
  by_cases hflags : (hasFlag flags endStreamFlag && hasFlag flags endHeadersFlag) = true
  · rw [if_pos hflags] at hopen
    rw [if_pos hflags, if_pos hflags]
    unfold Stream.recvES at hopen ⊢
    split at hopen
    · rename_i hstate
      rw [if_pos hstate]
    · cases hopen
  · rw [if_neg hflags, if_neg hflags]

/-- A frame that ends a header block, or that belongs to none, is complete. -/
theorem Phases.of_complete (h : Phases xs c it) (hid : it'.id = it.id) (hblock : ∀ header, ¬InBlock c' it.id header)
    (hdata : ¬InData c' it.id) (hfinal : it'.receivedFinalRes = (it.receivedFinalRes || x.finalAccepted it.id))
    (hwants : it'.wantsHeaders = !it'.receivedFinalRes)
    (hremote : it'.isHalfClosedRemote = (it.isHalfClosedRemote || x.endReceived it.id))
    (htrailers : it'.receivedTrailers = true → it'.receivedFinalRes = true ∧ it'.isHalfClosedRemote = true) :
    Phases (xs ++ [x]) c' it' := by
  refine ⟨?_, ?_, ?_, ?_, fun ht => ⟨(htrailers ht).1, .inl (htrailers ht).2⟩, ?_, ?_⟩
  · rw [hfinal, hid, Bool.or_eq_true, h.final]
    simp [or_and_right, exists_or]
  · intro hres
    rw [hwants, hres]
    rfl
  · rw [hid]
    exact fun header hin => absurd hin (hblock header)
  · intro hwanted
    rw [hwants, Bool.not_eq_false'] at hwanted
    exact .inl hwanted
  · rw [hid]
    exact fun hin => absurd hin hdata
  · rw [hid, hremote]
    intro y hy hyend
    rcases List.mem_append.1 hy with hy | hy
    · rw [h.ended y hy hyend, Bool.true_or]
    · rw [List.mem_singleton.1 hy] at hyend
      rw [hyend, Bool.or_true]

theorem Step.events_of_data {header : FrameHeader} (hframe : x.frameReceived = some header)
    (htype : header.type = .data) :
    x.finalAccepted header.streamId = false ∧ x.trailersAccepted header.streamId = false ∧
    x.endReceived header.streamId = hasFlag header.flags endStreamFlag := by
  have hblock : x.blockAccepted header.streamId = none := by
    unfold Step.blockAccepted
    split
    · rename_i hframe' _
      obtain rfl := Option.some.inj (hframe.symm.trans hframe')
      exact if_neg fun hcond => by simp [htype] at hcond
    · rfl
  exact ⟨by simp [Step.finalAccepted, hblock], by simp [Step.trailersAccepted, hblock],
    by simp [Step.endReceived, hframe, htype]⟩

theorem Step.events_of_part {header : FrameHeader} (hframe : x.frameReceived = some header)
    (htype : header.type ≠ .data) (hend : hasFlag header.flags endHeadersFlag = false) :
    x.finalAccepted header.streamId = false ∧ x.trailersAccepted header.streamId = false ∧
    x.endReceived header.streamId = false := by
  have hblock : x.blockAccepted header.streamId = none := by
    unfold Step.blockAccepted
    split
    · rename_i hframe' _
      obtain rfl := Option.some.inj (hframe.symm.trans hframe')
      exact if_neg fun hcond => by simp [hend] at hcond
    · rfl
  exact ⟨by simp [Step.finalAccepted, hblock], by simp [Step.trailersAccepted, hblock],
    by simp [Step.endReceived, hframe, htype, hend]⟩

theorem Step.events_of_block {header : FrameHeader} (hframe : x.frameReceived = some header)
    (htype : header.type = .headers ∨ header.type = .continuation) (hend : hasFlag header.flags endHeadersFlag = true)
    (hfind : x.before.client.findStream header.streamId = some it) :
    x.finalAccepted header.streamId = (!it.receivedTrailers &&
      !(x.before.client.hdecoder.decodeResponse x.after.client.hpackReadBuff it.res).1.isInformational) ∧
    x.trailersAccepted header.streamId = it.receivedTrailers ∧
    x.endReceived header.streamId = hasFlag header.flags endStreamFlag := by
  have hblock : x.blockAccepted header.streamId = some (header, it) := by
    rw [Step.blockAccepted, hframe, hfind]
    exact if_pos ⟨rfl, htype, hend⟩
  refine ⟨by simp [Step.finalAccepted, hblock], by simp [Step.trailersAccepted, hblock], ?_⟩
  rcases htype with htype | htype <;> simp [Step.endReceived, hframe, htype, hend]

/-- The end of a DATA frame. -/
theorem Phases.of_dataEnd (h : Phases xs c it) {header : FrameHeader} {resBuff : Bytes}
    (hlast : c.lastHeader = some header) (hid : it.id = header.streamId) (htype : header.type = .data)
    (hlast' : c'.lastHeader = some header) (hstage : c'.parserStage = .header) (hframe : x.frameReceived = some header)
    (hopen : (afterFlags (header.flags ||| endHeadersFlag) { it with resBuff }).isClosed = false) :
    Phases (xs ++ [x]) c' (afterFlags (header.flags ||| endHeadersFlag) { it with resBuff }) := by
  obtain ⟨hfinal, -, hend⟩ := Step.events_of_data hframe htype
  rw [← hid] at hfinal hend
  have hnot : ∀ {d : Client}, d.lastHeader = some header → ∀ last, ¬InBlock d it.id last := by
    rintro d hd last ⟨hlast, -, htype', -⟩
    obtain rfl := Option.some.inj (hd.symm.trans hlast)
    simp [htype] at htype'
  have hwants : it.wantsHeaders = !it.receivedFinalRes := by
    cases hres : it.receivedFinalRes with
    | true => exact h.responded hres
    | false =>
        by_contra hwanted
        simp only [Bool.not_false, Bool.not_eq_true] at hwanted
        rcases h.awaits hwanted with hres' | ⟨last, hin⟩
        · rw [hres] at hres'
          cases hres'
        · exact hnot hlast last hin
  have htrailers : it.receivedTrailers = true → it.receivedFinalRes = true ∧ it.isHalfClosedRemote = true := fun ht =>
    ⟨(h.trailers ht).1, (h.trailers ht).2.resolve_right fun ⟨last, hin, _⟩ => hnot hlast last hin⟩
  have hflags : (hasFlag (header.flags ||| endHeadersFlag) endStreamFlag &&
      hasFlag (header.flags ||| endHeadersFlag) endHeadersFlag) = hasFlag header.flags endStreamFlag := by
    rw [hasFlag_or_self, hasFlag_or (by decide), Bool.and_true]
  rw [afterFlags_eq hopen, hflags]
  refine h.of_complete (by split <;> rfl) (hnot hlast') (fun hin => hin.stage hstage) ?_ ?_ ?_ ?_
  · rw [hfinal, Bool.or_false]
    split <;> rfl
  · split <;> exact hwants
  · rw [hend]
    split <;> simp_all [Stream.isHalfClosedRemote]
  · split
    · exact fun ht => ⟨(htrailers ht).1, rfl⟩
    · exact htrailers

/-- The end of a frame of a header block. -/
theorem Client.BlockCase.phases {d : Client} {header : FrameHeader} (hcase : BlockCase d header it c')
    (h : Phases xs c it) (hlast : c.lastHeader = some header) (hstage : c.parserStage ≠ .header)
    (hid : it.id = header.streamId) (htype : header.type = .headers ∨ header.type = .continuation)
    (hfind : d.findStream it.id = some it) (hids : d.streamIds.Nodup) (hlast' : c'.lastHeader = some header)
    (hbefore : x.before.client.findStream it.id = some it) (hdecoder : x.before.client.hdecoder = d.hdecoder)
    (hblock : x.after.client.hpackReadBuff = d.hpackReadBuff)
    (hframe : x.frameReceived = if c'.parserStage = .header then some header else none) (hit' : it' ∈ c'.openStreams) :
    Phases (xs ++ [x]) c' it' ∨ it'.id ≠ header.streamId ∧ it' ∈ d.openStreams := by
  have hin : InBlock c it.id header := ⟨hlast, hid.symm, htype, .inl hstage⟩
  obtain ⟨hwants, hremote, hsecond⟩ := h.block header hin
  have hopen : (d.findStream it.id).isSome := by rw [hfind]; rfl
  have hdata : ¬InData c' it.id := by
    rintro ⟨⟨last, hd, -, htype'⟩, -⟩
    obtain rfl := Option.some.inj (hlast'.symm.trans hd)
    simp [htype'] at htype
  have hnot : c'.parserStage = .header → hasFlag header.flags endHeadersFlag = true → ∀ last, ¬InBlock c' it.id last := by
    rintro hstage hend last ⟨hd, -, -, hunfinished⟩
    obtain rfl := Option.some.inj (hlast'.symm.trans hd)
    rw [hstage, hend] at hunfinished
    simp at hunfinished
  have hevents : c'.parserStage = .header → hasFlag header.flags endHeadersFlag = true → _ := fun hstage hend =>
    Step.events_of_block (hframe.trans (if_pos hstage)) htype hend (hid ▸ hbefore)
  rw [← hid, hdecoder, hblock] at hevents
  rw [← hid]
  cases hcase with
  | part hend hsettles hstage =>
      rcases hsettles.mem rfl hopen hids hit' with ⟨rfl, -⟩ | hother
      · have hevents := Step.events_of_part (hframe.trans (if_pos hstage)) (by rcases htype with h | h <;> simp [h]) hend
        rw [← hid] at hevents
        have hin' : InBlock c' it'.id header := ⟨hlast', hid.symm, htype, .inr hend⟩
        refine .inl (h.congr (.refl it') ⟨fun _ => ⟨header, hin⟩, fun _ => ⟨header, hin'⟩⟩ ?_ (fun h => absurd h hdata)
          hevents.1 hevents.2.2)
        rintro ⟨last, hlast'', hes⟩
        obtain rfl := Option.some.inj (hlast.symm.trans hlast''.lastHeader)
        exact ⟨header, hin', hes⟩
      · exact .inr hother
  | refused res hend hends hstage => exact .inr (hends.mem hids hit')
  | trailers hend htrailers hsettles hstage =>
      have hid' : (afterFlags header.flags it).id = it.id := by unfold afterFlags; split <;> rfl
      rcases hsettles.mem hid' hopen hids hit' with ⟨rfl, hclosed⟩ | hother
      · obtain ⟨hfinal, -, hend'⟩ := hevents hstage hend
        obtain ⟨hres, hes⟩ := h.trailers htrailers
        have hes : hasFlag header.flags endStreamFlag = true := by
          obtain ⟨last, hlast'', hes⟩ := hes.resolve_left (by simp [hremote])
          obtain rfl := Option.some.inj (hlast.symm.trans hlast''.lastHeader)
          exact hes
        rw [htrailers] at hfinal
        rw [afterFlags_eq hclosed, if_pos (by rw [hes, hend]; rfl)]
        refine .inl (h.of_complete rfl (hnot hstage hend) hdata (by rw [hfinal]; simp) ?_ ?_ fun _ => ⟨hres, rfl⟩)
        · exact hwants.trans (by simp [hres])
        · rw [hend', hes, Bool.or_true]
          rfl
      · exact .inr hother
  | informational res hend htrailers hfinal hes hinfo hsettles hstage =>
      rcases hsettles.mem rfl hopen hids hit' with ⟨rfl, -⟩ | hother
      · obtain ⟨hfinal', -, hend'⟩ := hevents hstage hend
        rw [hinfo] at hfinal'
        refine .inl (h.of_complete rfl (hnot hstage hend) hdata (by rw [hfinal']; simp) (by simp [hfinal]) ?_ ?_)
        · rw [hend', hes, Bool.or_false]
          rfl
        · exact fun ht => absurd (htrailers.symm.trans ht) (by simp)
      · exact .inr hother
  | final res hend htrailers hinfo hsettles hstage =>
      have hid' : (afterFlags header.flags { it with receivedFinalRes := true, res }).id = it.id := by
        unfold afterFlags; split <;> rfl
      rcases hsettles.mem hid' hopen hids hit' with ⟨rfl, hclosed⟩ | hother
      · obtain ⟨hfinal', -, hend'⟩ := hevents hstage hend
        rw [htrailers, hinfo] at hfinal'
        rw [afterFlags_eq hclosed]
        refine .inl (h.of_complete (by split <;> rfl) (hnot hstage hend) hdata ?_ ?_ ?_ ?_)
        · rw [hfinal']
          split <;> simp
        · split <;> simp [hwants]
        · rw [hend', hend, hremote]
          split <;> simp_all [Stream.isHalfClosedRemote]
        · split <;> simp [htrailers]
      · exact .inr hother

theorem Client.PayloadCase.phases {header : FrameHeader} {payload : PayloadStage} (h : PayloadCase c header payload c')
    (hids : c.streamIds.Nodup) (hphases : ∀ it ∈ c.openStreams, Phases xs c it) (hlast : c.lastHeader = some header)
    (hstage : c.parserStage = .payload payload) (hlast' : c'.lastHeader = some header)
    (hbefore : x.before.client = c) (hafter : x.after.client = c')
    (hframe : x.frameReceived = if c'.parserStage = .header then some header else none) :
    ∀ it' ∈ c'.openStreams, Phases (xs ++ [x]) c' it' := by
  have hin : ∀ {d : Client}, d.lastHeader = some header → ∀ {id last}, InBlock d id last →
      header.streamId = id ∧ (header.type = .headers ∨ header.type = .continuation) := by
    rintro d hd id last ⟨hlast, hid, htype, -⟩
    obtain rfl := Option.some.inj (hd.symm.trans hlast)
    exact ⟨hid, htype⟩
  have hinData : ∀ {d : Client}, d.lastHeader = some header → ∀ {id}, InData d id →
      header.streamId = id ∧ header.type = .data := by
    rintro d hd id ⟨⟨last, hlast, hid, htype⟩, -⟩
    obtain rfl := Option.some.inj (hd.symm.trans hlast)
    exact ⟨hid, htype⟩
  -- a stream that the frame has nothing to do with
  have hother : ∀ it' ∈ c.openStreams, it'.id ≠ header.streamId ∨ ¬header.isReadInParts → Phases (xs ++ [x]) c' it' := by
    intro it' hit' hne
    have hevents := Step.events_of_ne (x := x) it'.id fun last hlast'' => by
      rw [hframe] at hlast''
      split at hlast''
      · rw [← Option.some.inj hlast'']
        exact hne.imp_left Ne.symm
      · cases hlast''
    have hnot : ∀ {d : Client}, d.lastHeader = some header → ∀ last, ¬InBlock d it'.id last := fun hd last hblock =>
      hne.elim (fun hne => hne (hin hd hblock).1.symm) fun hparts => hparts (.inr (hin hd hblock).2)
    refine (hphases it' hit').congr_of_not (.refl it') (hnot hlast) (hnot hlast') (fun hdata => ?_) hevents.1 hevents.2.2
    obtain ⟨hid, htype⟩ := hinData hlast' hdata
    exact hne.elim (fun hne => absurd hid.symm hne) fun hparts => absurd (.inl htype) hparts
  have hunfinished : ∀ {stage : PayloadStage}, c'.parserStage = .payload stage →
      (c'.parserStage = .header ↔ c.parserStage = .header) ∧ x.frameReceived = none := by
    intro stage hstage'
    rw [hframe, hstage', hstage]
    simp
  intro it' hit'
  cases h with
  | quiet hparts hopen hclosed hblock =>
      rw [hopen] at hit'
      refine hother it' hit' (not_and_or.1 fun ⟨heq, hread⟩ => ?_)
      have hfound := findStream_of_mem hids hit'
      rw [heq, hparts hread] at hfound
      cases hfound
  | reset it ec htype hfind h hblock hstage' => exact hother it' (h.mem hids hit').2 (.inl (h.mem hids hit').1)
  | data it r htype hfind hr h hblock hres hrbuf hstage' =>
      rcases h.mem (findStream_id hfind : it.id = header.streamId) (by rw [hfind]; rfl) hids hit' with rfl | ⟨hne, hold⟩
      · exact (hphases it (List.mem_of_find?_eq_some hfind)).of_spared ⟨rfl, rfl, rfl, rfl, rfl⟩ (hlast'.trans hlast.symm)
          (hunfinished hstage').1 (hunfinished hstage').2
      · exact hother it' hold (.inl hne)
  | dataEnd it r htype hfind hr h hblock hres hec hrbuf hstage' =>
      have hid : it.id = header.streamId := findStream_id hfind
      have hid' : (afterFlags (header.flags ||| endHeadersFlag) { it with resBuff := it.resBuff ++ r.data }).id =
          header.streamId := by
        unfold afterFlags
        split <;> exact hid
      rcases h.mem hid' (by rw [hfind]; rfl) hids hit' with ⟨rfl, hopen⟩ | ⟨hne, hold⟩
      · exact (hphases it (List.mem_of_find?_eq_some hfind)).of_dataEnd hlast hid htype hlast' hstage'
          (hframe.trans (if_pos hstage')) hopen
      · exact hother it' hold (.inl hne)
  | block it stage htype hfind hopen hclosed hblock hstage' =>
      rw [hopen] at hit'
      exact (hphases it' hit').of_spared (.refl it') (hlast'.trans hlast.symm) (hunfinished hstage').1
        (hunfinished hstage').2
  | blockEnd it rbuf stage htype hfind h hblock =>
      have hid : it.id = header.streamId := findStream_id hfind
      have hfound : c.findStream it.id = some it := by rw [hid]; exact hfind
      rcases h.phases (x := x) (hphases it (List.mem_of_find?_eq_some hfind)) hlast (by simp [hstage]) hid htype hfound hids
        hlast' (by rw [hbefore]; exact hfound) (by rw [hbefore]) (by rw [hafter]; exact hblock) hframe hit' with h | h
      · exact h
      · exact hother it' h.2 (.inl h.1)

end Phases

/-! ## Runs -/

section Runs

variable {s t : System} {a : Action} {out : List SentFrame} {xs : List Step}

theorem Client.HeaderStep.lastHeader {c c' : Client} {header : FrameHeader} (h : HeaderStep c header c') :
    c'.lastHeader = c.lastHeader := by
  obtain ⟨_, _, _, _, _, _, _, _, _, _, _, _, rfl⟩ := h.parserOnly
  rfl

/-- The frames of a run belong to streams that were opened before. -/
theorem SystemRun.heard (h : SystemRun xs s) :
    (∀ header, s.client.lastHeader = some header → header.streamId ≤ s.client.lastClientId) ∧
    ∀ y ∈ xs, ∀ header, y.frameReceived = some header → header.streamId ≤ s.client.lastClientId := by
  induction h with
  | start => simp
  | next h hstep ih =>
      rename_i xs s t a out
      have hs := SystemRun.invariant h
      have hle := (hs.idsGrow hstep).lastClientId
      have hframe : ∀ header, Step.frameReceived ⟨s, a, out, t⟩ = some header →
          header.streamId ≤ t.client.lastClientId := by
        intro header hframe
        unfold Step.frameReceived at hframe
        split at hframe
        · exact (ih.1 header hframe).trans hle
        · cases hframe
      refine ⟨fun last hlast => ?_, fun y hy header hy' => ?_⟩
      · cases hs.seen hstep with
        | header c header hlen heq hheader ha ht hstage hout hheader' hframe' hvalid =>
            have hlast' : last = acceptedHeader c.lastHeader header := by
              rw [ht] at hlast
              exact (Option.some.inj hlast).symm
            rw [hlast', acceptedHeader_streamId]
            exact (FrameHeader.valid_of_isValidFrame hvalid).streamId.trans hle
        | payload header payload hlast' hstage hacc hec ha ht =>
            rw [ht] at hlast
            exact (ih.1 last ((processFramePayload_lastHeader _ _ _).symm.trans hlast)).trans hle
        | done rbufExhausted ha ht =>
            rw [ht] at hlast
            exact (ih.1 last hlast).trans hle
        | perform ha hparsing henabled ht =>
            rw [ht] at hlast
            exact (ih.1 last ((Action.perform_spared hs.ids henabled).lastHeader.symm.trans hlast)).trans hle
      · rcases List.mem_append.1 hy with hold | hnew
        · exact (ih.2 y hold header hy').trans hle
        · rw [List.mem_singleton.1 hnew] at hy'
          exact hframe header hy'

theorem SystemRun.idleStreams (h : SystemRun xs s) : ∀ r ∈ s.client.idleStreams, r.isRequest = true := by
  induction h with
  | start => exact fun r hr => by cases hr
  | next h hstep ih =>
      intro r hr
      rcases System.idleStreams_of_step hstep r hr with hold | rfl
      · exact ih r hold
      · have henabled := System.enabled_of_step hstep
        simp only [Action.enabled, Bool.and_eq_true] at henabled
        exact henabled.2

/-- A new stream has an identifier that no frame had. -/
theorem SystemInvariant.lt_of_opens (h : SystemInvariant s) (hstep : s.step a = some (t, out)) {new : Stream}
    (heq : t.client.openStreams = s.client.openStreams ++ [new]) : s.client.lastClientId < new.id := by
  obtain ⟨ids, hsub, -, hless⟩ := (h.idsGrow hstep).streamIds
  have hnodup := (h.of_step hstep).parser.nodup
  have hids : t.client.streamIds = s.client.streamIds ++ [new.id] := by
    rw [streamIds, heq, List.map_append]
    rfl
  have hnodup : t.client.streamIds.Nodup := hnodup
  rw [hids] at hsub hnodup
  rcases List.mem_append.1 (hsub.subset (List.mem_append_right _ (List.mem_singleton_self _))) with hold | hnew
  · exact absurd rfl ((List.nodup_append.1 hnodup).2.2 new.id hold new.id (List.mem_singleton_self _))
  · exact (hless new.id hnew).1

theorem openedStream_id (r : Stream) (id : Nat) (windowSize : Int) : (openedStream r id windowSize).id = id := by
  unfold openedStream
  dsimp only
  split <;> rfl

theorem SystemRun.phases (h : SystemRun xs s) : ∀ it ∈ s.client.openStreams, Phases xs s.client it := by
  induction h with
  | start => exact fun it hit => by cases hit
  | next h hstep ih =>
      rename_i xs s t a out
      have hs := SystemRun.invariant h
      cases hs.seen hstep with
      | header c header hlen heq hheader ha ht hstage hout hheader' hframe hvalid =>
          have hlast := hheader.lastHeader
          refine hheader.headerCase.phases hs.parser.nodup (fun it hit => (ih it hit).client rfl rfl) hstage hvalid ?_ ?_ ?_
            hframe
          · rw [ht]
            rfl
          · rw [ht, ← hlast]
            rfl
          · rw [ht]
            simp [acceptHeader]
      | payload header payload hlast hstage hacc hec ha ht hout hheader' hframe =>
          have hclient : t.client = (s.client.processFramePayload header payload).1 := by rw [ht]
          have hcase := processFramePayload_case hacc hec
          rw [← hclient] at hcase
          refine hcase.phases hs.parser.nodup ih hlast hstage ?_ rfl rfl hframe
          rw [hclient, processFramePayload_lastHeader, hlast]
      | done rbufExhausted ha ht hout hheader' hframe =>
          intro it hit
          rw [ht] at hit ⊢
          rw [ht] at hframe
          exact (ih it hit).of_spared (.refl it) rfl .rfl hframe
      | perform ha hparsing henabled ht hout hheader' hframe =>
          have hclient : t.client = (a.perform s.client).1 := by rw [ht]
          have hspared := Action.perform_spared hs.ids henabled
          rw [← hclient] at hspared
          have hold : ∀ it ∈ s.client.openStreams, ∀ it', SamePhase it' it →
              Phases (xs ++ [⟨s, a, out, t⟩]) t.client it' := fun it hit it' hsame =>
            (ih it hit).of_spared hsame hspared.lastHeader (by rw [hspared.parserStage]) hframe
          intro it' hit'
          by_cases hopens : a = .sendRequest
          · obtain ⟨_, _, _, _, new, heq, -, hnew⟩ := sendOneStreamRequest_eq s.client
            have hstreams : t.client.openStreams = s.client.openStreams ++ new := by
              rw [hclient, hopens, Action.perform, heq]
            rw [hstreams] at hit'
            rcases List.mem_append.1 hit' with hit' | hit'
            · exact hold it' hit' it' (.refl it')
            · rcases hnew with rfl | ⟨r, hr, id, windowSize, rfl⟩
              · cases hit'
              · obtain rfl := List.mem_singleton.1 hit'
                have hlt := hs.lt_of_opens hstep hstreams
                rw [openedStream_id] at hlt
                obtain ⟨hheard, hheards⟩ := SystemRun.heard h
                refine phases_opened (SystemRun.idleStreams h r hr) (fun y hy => ?_) fun header hheader => ?_
                · have hevents := Step.events_of_ne (x := y) id fun header hy' => .inl ?_
                  · exact ⟨hevents.1, hevents.2.2⟩
                  · rcases List.mem_append.1 hy with hy | hy
                    · exact Nat.ne_of_lt (Nat.lt_of_le_of_lt (hheards y hy header hy') hlt)
                    · rw [List.mem_singleton.1 hy, hframe] at hy'
                      cases hy'
                · rw [hspared.lastHeader] at hheader
                  exact Nat.ne_of_lt (Nat.lt_of_le_of_lt (hheard header hheader) hlt)
          · have hphase := Action.perform_phase (c := s.client) hs.parser.nodup hopens
            rw [← hclient] at hphase
            obtain ⟨it, hit, hsame⟩ := exists_of_sublistForall₂ hphase hit'
            exact hold it hit it' hsame.toSamePhase

/-! ## The order of the phases -/

/-- A DATA frame is read behind the final response and in front of the end of the stream. -/
theorem SystemRun.data_in_turn (h : SystemRun xs s) {id : Nat} {it : Stream} (hin : InData s.client id)
    (hfind : s.client.findStream id = some it) :
    (∃ y ∈ xs, y.finalAccepted id = true) ∧ ∀ y ∈ xs, y.endReceived id = false := by
  have hphases := h.phases it (List.mem_of_find?_eq_some hfind)
  obtain rfl : it.id = id := findStream_id hfind
  obtain ⟨hremote, hwants⟩ := hphases.data hin
  refine ⟨?_, fun y hy => ?_⟩
  · rcases hphases.awaits hwants with hfinal | ⟨last, hblock⟩
    · exact hphases.final.1 hfinal
    · -- the frame is no header block
      obtain ⟨header, hlast, -, htype⟩ := hin.lastHeader
      obtain rfl := Option.some.inj (hlast.symm.trans hblock.lastHeader)
      rcases hblock.type with h | h <;> simp [htype] at h
  · by_contra hend
    simp only [Bool.not_eq_false] at hend
    rw [hphases.ended y hy hend] at hremote
    cases hremote

/-- The last frame of a header block is read in the block. -/
theorem Step.inBlock_of_blockAccepted {x : Step} {id : Nat} {header : FrameHeader} {it : Stream}
    (h : x.blockAccepted id = some (header, it)) :
    x.before.client.findStream id = some it ∧ InBlock x.before.client id header ∧
      x.frameReceived = some header ∧ hasFlag header.flags endHeadersFlag = true := by
  unfold Step.blockAccepted at h
  split at h
  · rename_i header' it' hframe hfind
    split at h
    · rename_i hcond
      obtain ⟨rfl, rfl⟩ := Prod.mk.inj (Option.some.inj h)
      refine ⟨hfind, ?_, hframe, hcond.2.2⟩
      unfold Step.frameReceived at hframe
      split at hframe
      · rename_i hpass
        exact ⟨hframe, hcond.1, hcond.2.1, .inl hpass.2.1⟩
      · cases hframe
    · cases h
  · cases h

theorem SystemRun.trailers_in_turn (h : SystemRun xs s) {x : Step} (hbefore : x.before = s) {id : Nat}
    (htrailers : x.trailersAccepted id = true) :
    (∃ y ∈ xs, y.finalAccepted id = true) ∧ (∀ y ∈ xs, y.endReceived id = false) ∧ x.endReceived id = true := by
  subst hbefore
  obtain ⟨⟨header, it⟩, hblock, hreceived⟩ := (Option.any_eq_true _ _).1 htrailers
  obtain ⟨hfind, hin, hframe, hend⟩ := Step.inBlock_of_blockAccepted hblock
  have hphases := h.phases it (List.mem_of_find?_eq_some hfind)
  obtain rfl : it.id = id := findStream_id hfind
  have hremote := (hphases.block header hin).2.1
  obtain ⟨hfinal, hor⟩ := hphases.trailers hreceived
  obtain ⟨last, hlast, hes⟩ := hor.resolve_left (by simp [hremote])
  obtain rfl := Option.some.inj (hin.lastHeader.symm.trans hlast.lastHeader)
  refine ⟨hphases.final.1 hfinal, fun y hy => ?_, ?_⟩
  · by_contra hyend
    simp only [Bool.not_eq_false] at hyend
    rw [hphases.ended y hy hyend] at hremote
    cases hremote
  · have hid := hin.streamId
    have hevents := Step.events_of_block hframe hin.type hend (hid.symm ▸ hfind)
    rw [hid] at hevents
    exact hevents.2.2.trans hes

theorem SystemRun.final_in_turn (h : SystemRun xs s) {x : Step} (hbefore : x.before = s) {id : Nat}
    (hfinal : x.finalAccepted id = true) : ∀ y ∈ xs, y.finalAccepted id = false := by
  subst hbefore
  obtain ⟨⟨header, it⟩, hblock, hreceived⟩ := (Option.any_eq_true _ _).1 hfinal
  obtain ⟨hfind, hin, -, -⟩ := Step.inBlock_of_blockAccepted hblock
  have hphases := h.phases it (List.mem_of_find?_eq_some hfind)
  obtain rfl : it.id = id := findStream_id hfind
  simp only [Bool.and_eq_true, Bool.not_eq_true'] at hreceived
  intro y hy
  by_contra hyfinal
  simp only [Bool.not_eq_false] at hyfinal
  have htrailers := (hphases.block header hin).2.2 (hphases.final.2 ⟨y, hy, hyfinal⟩)
  rw [hreceived.1] at htrailers
  cases htrailers

end Runs

end Rad.Http2
