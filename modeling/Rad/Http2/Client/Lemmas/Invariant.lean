import Rad.Http2.Client.Lemmas.Control

/-!
# The passes of `parse_frames` and what holds in every run

A pass is inverted once; what it can do is the same in every proof about runs. In every state of a run the open streams
have different identifiers, and the payload stage belongs to a frame whose header was accepted.
-/

namespace Rad.Http2

open Lib Client

/-! ## Accepted frame headers -/

theorem hasFlag_and {mask flag : UInt8} (hmask : mask &&& flag = flag) (flags : UInt8) :
    hasFlag (flags &&& mask) flag = hasFlag flags flag := by
  rw [hasFlag, hasFlag, UInt8.and_assoc, hmask]

theorem hasFlag_and_eq_false {mask flag : UInt8} (hmask : mask &&& flag = 0) (hflag : flag ≠ 0) (flags : UInt8) :
    hasFlag (flags &&& mask) flag = false := by
  rw [hasFlag, UInt8.and_assoc, hmask, UInt8.and_zero, beq_eq_false_iff_ne]
  exact hflag.symm

theorem FrameType.lt_of_ofByte_unknown {b value : UInt8} (h : FrameType.ofByte b = .unknown value) : 9 < value := by
  have hall : ∀ n < 256, (match FrameType.ofByte (UInt8.ofNat n) with
      | .unknown value => decide (9 < value)
      | _ => true) = true := by decide +kernel
  simpa [h] using hall b.toNat b.toNat_lt

/-- The checks that an accepted frame header has passed. -/
structure FrameHeader.Valid (header : FrameHeader) (lastClientId : Nat) : Prop where
  known : header.type ≠ .pushPromise ∧ header.type.toByte ≤ 9
  size : ∃ maxSize, header.isValidSize maxSize = true
  streamId : header.streamId ≤ lastClientId

theorem FrameHeader.valid_of_isValidFrame {header : FrameHeader} {previous : Option FrameHeader}
    {maxSize lastClientId lastServerId : Nat}
    (h : header.isValidFrame previous maxSize false false lastClientId lastServerId = true) :
    header.Valid lastClientId := by
  unfold isValidFrame at h
  split at h
  · cases h
  · rename_i htype
    split at h
    · cases h
    · split at h
      · cases h
      · rename_i hsize
        split at h
        · cases h
        · rename_i hid
          simp only [isValidType, Bool.not_false, Bool.and_false, Bool.not_eq_true', Bool.not_eq_false] at htype
          have hknown : header.type ≠ .pushPromise ∧ header.type.toByte ≤ 9 := by
            split at htype
            · cases htype
            · rename_i hpush
              exact ⟨hpush, by simpa using htype⟩
          refine ⟨hknown, ⟨maxSize, by simpa using hsize⟩, ?_⟩
          simp only [Bool.not_eq_true', Bool.not_eq_false, isValidStreamId, Bool.false_and, Bool.not_false, Bool.true_and,
            Bool.false_or, hknown.1, decide_false, Bool.false_eq_true, ↓reduceIte] at hid
          split at hid
          · omega
          · split at hid
            · cases hid
            · split at hid
              · cases hid
              · simpa using hid

theorem FrameHeader.Valid.length_le {header : FrameHeader} {lastClientId : Nat} (h : header.Valid lastClientId) :
    header.length ≤ maxPayloadSize := by
  obtain ⟨maxSize, hsize⟩ := h.size
  unfold isValidSize at hsize
  simp only at hsize
  split at hsize
  · cases hsize
  · rename_i hlen
    simp only [Bool.or_eq_true, decide_eq_true_eq, not_or] at hlen
    omega

theorem FrameHeader.Valid.size_eq {header : FrameHeader} {lastClientId : Nat} (h : header.Valid lastClientId) :
    (match header.type with
      | .settings => if hasFlag header.flags settingsAckFlag then header.length == 0 else header.length % 6 == 0
      | .priority => header.length == 5
      | .rstStream | .windowUpdate => header.length == 4
      | .ping => header.length == 8
      | .goaway => header.length ≥ 8
      | .headers => header.length > prefixSize header.flags
      | .data => header.length ≥ if hasFlag header.flags paddedFlag then 1 else 0
      | .pushPromise | .continuation | .unknown _ => true) = true := by
  obtain ⟨maxSize, hsize⟩ := h.size
  unfold isValidSize at hsize
  simp only at hsize
  split at hsize
  · cases hsize
  · exact hsize

section Accept

variable (last : Option FrameHeader) (header : FrameHeader)

theorem copyEndStreamFlag_eq (h : header.type ≠ .continuation) :
    copyEndStreamFlagFromHeadersToContinuation last header = header := by
  unfold copyEndStreamFlagFromHeadersToContinuation
  split
  · rfl
  · rw [if_pos h]
    split <;> rfl

theorem copyEndStreamFlag_fields :
    (copyEndStreamFlagFromHeadersToContinuation last header).length = header.length ∧
    (copyEndStreamFlagFromHeadersToContinuation last header).streamId = header.streamId ∧
    (copyEndStreamFlagFromHeadersToContinuation last header).type = header.type := by
  unfold copyEndStreamFlagFromHeadersToContinuation
  split
  · exact ⟨rfl, rfl, rfl⟩
  · split
    · exact ⟨rfl, rfl, rfl⟩
    · split <;> exact ⟨rfl, rfl, rfl⟩

/-- The header that is kept of an accepted one: only the flags of its type are left. -/
def acceptedHeader : FrameHeader :=
  copyEndStreamFlagFromHeadersToContinuation last { header with flags := header.flags &&& validFramesFlags header.type }

theorem acceptedHeader_length : (acceptedHeader last header).length = header.length :=
  (copyEndStreamFlag_fields _ _).1

theorem acceptedHeader_streamId : (acceptedHeader last header).streamId = header.streamId :=
  (copyEndStreamFlag_fields _ _).2.1

theorem acceptedHeader_type : (acceptedHeader last header).type = header.type :=
  (copyEndStreamFlag_fields _ _).2.2

theorem acceptedHeader_flags (h : header.type ≠ .continuation) :
    (acceptedHeader last header).flags = header.flags &&& validFramesFlags header.type := by
  rw [acceptedHeader, copyEndStreamFlag_eq]
  exact h

theorem prefixSize_and {mask : UInt8} (hpadded : mask &&& paddedFlag = paddedFlag)
    (hpriority : mask &&& priorityFlag = priorityFlag) (flags : UInt8) : prefixSize (flags &&& mask) = prefixSize flags := by
  simp only [prefixSize, hasFlag_and hpadded, hasFlag_and hpriority]

theorem accepted_acceptedHeader {last : Option FrameHeader} {header : FrameHeader} {lastClientId : Nat}
    (h : header.Valid lastClientId) (hknown : ∀ value, header.type = .unknown value → 9 < value) :
    Accepted lastClientId (acceptedHeader last header)
      { totalSize := (acceptedHeader last header).length, minReadSize := (acceptedHeader last header).minPayloadSize } := by
  have hle := h.length_le
  have hsize := h.size_eq
  have hflags := acceptedHeader_flags last header
  unfold maxPayloadSize at hle
  refine ⟨rfl, rfl, by rw [acceptedHeader_length]; omega, Nat.two_pow_pos 64,
    by rw [acceptedHeader_streamId]; exact h.streamId, ?_⟩
  unfold Kind
  simp only [acceptedHeader_type, acceptedHeader_length]
  cases htype : header.type with
  | data =>
      simp only [htype, decide_eq_true_eq] at hsize
      simp only [htype, validFramesFlags] at hflags
      have hpriority : hasFlag (acceptedHeader last header).flags priorityFlag = false := by
        rw [hflags (by simp)]; exact hasFlag_and_eq_false (by decide) (by decide) _
      have hpadded : hasFlag (acceptedHeader last header).flags paddedFlag = hasFlag header.flags paddedFlag := by
        rw [hflags (by simp)]; exact hasFlag_and (by decide) _
      refine ⟨⟨by omega, ?_, fun h => by simp [hpriority] at h⟩, hpriority⟩
      simpa [prefixSize, hpriority, hpadded] using hsize
  | headers =>
      simp only [htype, decide_eq_true_eq] at hsize
      simp only [htype, validFramesFlags] at hflags
      have hsize₀ : prefixSize (acceptedHeader last header).flags = prefixSize header.flags := by
        rw [hflags (by simp)]; exact prefixSize_and (by decide) (by decide) _
      rw [hsize₀]
      exact ⟨⟨by omega, by omega, fun _ => by omega⟩, hsize⟩
  | settings =>
      simp only [htype] at hsize
      simp only [htype, validFramesFlags] at hflags
      have hack : hasFlag (acceptedHeader last header).flags settingsAckFlag = hasFlag header.flags settingsAckFlag := by
        rw [hflags (by simp)]; exact hasFlag_and (by decide) _
      simp only [hack]
      split at hsize
      · rename_i hset
        simp only [beq_iff_eq] at hsize
        exact ⟨by omega, fun _ => hsize, trivial, .inr ⟨hsize, trivial⟩⟩
      · rename_i hset
        simp only [beq_iff_eq] at hsize
        exact ⟨hsize, fun h => absurd h hset, trivial, (Nat.eq_zero_or_pos _).symm.imp_right fun h => ⟨h, trivial⟩⟩
  | priority => exact ⟨by simpa [htype] using hsize, trivial⟩
  | rstStream => exact ⟨by simpa [htype] using hsize, trivial⟩
  | windowUpdate => exact ⟨by simpa [htype] using hsize, trivial⟩
  | ping => exact ⟨by simpa [htype] using hsize, trivial⟩
  | goaway => exact ⟨by simpa [htype] using hsize, trivial⟩
  | continuation => trivial
  | pushPromise => exact h.known.1 htype
  | unknown value =>
      have hless := h.known.2
      rw [htype] at hless
      exact absurd (hknown value htype) (UInt8.not_lt.2 hless)

end Accept

/-! ## Validation -/

theorem validateOpenStream_failed {c : Client} {it : Stream} {header : FrameHeader} {ec : Error}
    (h : (c.validateOpenStream it header).2 = some ec) : failed (some ec) = true := by
  unfold validateOpenStream at h
  simp only at h
  repeat' split at h
  all_goals
    cases h
    try rfl

theorem validateFrameHeader_failed {c : Client} {header : FrameHeader} {ec : Error}
    (h : (c.validateFrameHeader header).2 = some ec) : failed (some ec) = true := by
  unfold validateFrameHeader at h
  split at h
  · cases h; rfl
  · split at h
    · cases h
    · split at h
      · split at h
        · cases h
        · cases h; rfl
      · split at h
        · split at h <;> cases h
        · exact validateOpenStream_failed h

theorem validateFrameHeader_isValidFrame {c : Client} {header : FrameHeader}
    (h : (c.validateFrameHeader header).2 = none) :
    header.isValidFrame c.lastHeader c.selfMaxPayloadSize false false c.lastClientId c.lastServerId = true := by
  unfold validateFrameHeader at h
  split at h
  · cases h
  · rename_i hvalid
    simpa using hvalid

theorem validateFrameHeader_valid {c : Client} {header : FrameHeader} (h : (c.validateFrameHeader header).2 = none) :
    header.Valid c.lastClientId :=
  FrameHeader.valid_of_isValidFrame (validateFrameHeader_isValidFrame h)

/-! ## Passes -/

/-- What a pass that goes on has done. -/
inductive NextPass (s t : ParseState) : Prop where
  | header (c' : Client) (header : FrameHeader) (hstage : s.client.parserStage = .header)
      (hlen : 9 ≤ s.client.rbuf.length) (heq : header = .ofBuffer (s.client.rbuf.take 9))
      (hvalidate : { s.client with rbuf := s.client.rbuf.drop 9 }.validateFrameHeader header = (c', none))
      (ht : t = c'.acceptHeader header)
  | payload (payload : PayloadStage) (hstage : s.client.parserStage = .payload payload)
      (hmin : payload.minReadSize ≤ s.client.rbuf.length)
      (hec : failed (s.client.processFramePayload (s.client.lastHeader.getD {}) payload).2 = false)
      (ht : t = { client := (s.client.processFramePayload (s.client.lastHeader.getD {}) payload).1 })

theorem parsePass_of_runs {s : ParseState} (h : Runs s) :
    parsePass s = match s.client.parserStage with
      | .header => s.client.parseHeader
      | .payload payload => s.client.parsePayload (s.client.lastHeader.getD {}) payload := by
  have hgo : ¬(s.client.stopped || (s.client.rbuf.isEmpty && !s.hasZeroPayload)) = true := by
    have hinput := h.input
    simp only [h.stopped, Bool.false_or, Bool.and_eq_true, List.isEmpty_iff, Bool.not_eq_true']
    rintro ⟨hnil, hzero⟩
    simp [hnil, hzero] at hinput
  exact if_neg hgo

theorem parsePass_of_not_runs {s : ParseState} (h : ¬Runs s) : parsePass s = .done (s.client, none) := by
  refine if_pos ?_
  by_contra hgo
  simp only [Bool.or_eq_true, Bool.and_eq_true, List.isEmpty_iff, Bool.not_eq_true', not_or, not_and,
    Bool.not_eq_true, Bool.not_eq_false] at hgo
  exact h ⟨hgo.1, (em (s.client.rbuf = [])).symm.imp_right hgo.2⟩

theorem parsePass_next {s t : ParseState} (h : parsePass s = .next t) : Runs s ∧ NextPass s t := by
  have hruns : Runs s := by
    by_contra hstop
    rw [parsePass_of_not_runs hstop] at h
    cases h
  refine ⟨hruns, ?_⟩
  rw [parsePass_of_runs hruns] at h
  split at h
  · rename_i hstage
    unfold parseHeader at h
    split at h
    · cases h
    · rename_i hlen
      simp only at h
      split at h
      · cases h
      · rename_i c' hvalidate
        cases h
        exact .header c' _ hstage (by simpa [FrameHeader.neededWriteSize] using hlen) rfl hvalidate rfl
  · rename_i payload hstage
    unfold parsePayload at h
    split at h
    · cases h
    · rename_i hmin
      simp only at h
      split at h
      · cases h
      · rename_i hec
        cases h
        exact .payload payload hstage (by omega) (by simpa using hec) rfl

/-- The ways in which the loop returns without an error. -/
inductive DonePass (s : ParseState) (c' : Client) : Prop where
  | stops (hstop : ¬Runs s) (heq : c' = s.client)
  | header (hruns : Runs s) (hstage : s.client.parserStage = .header) (hlen : s.client.rbuf.length < 9)
      (heq : c' = { s.client with rbufExhausted := true })
  | payload (hruns : Runs s) (payload : PayloadStage) (hstage : s.client.parserStage = .payload payload)
      (hlen : s.client.rbuf.length < payload.minReadSize) (heq : c' = s.client)

theorem parsePass_done {s : ParseState} {c' : Client} {ec : Option Error} (h : parsePass s = .done (c', ec))
    (hec : failed ec = false) : DonePass s c' := by
  by_cases hruns : Runs s
  · rw [parsePass_of_runs hruns] at h
    split at h
    · rename_i hstage
      unfold parseHeader at h
      split at h
      · rename_i hlen
        cases h
        exact .header hruns hstage hlen rfl
      · simp only at h
        split at h
        · rename_i c'' ec' hvalidate
          cases h
          rw [validateFrameHeader_failed (congrArg Prod.snd hvalidate)] at hec
          cases hec
        · cases h
    · rename_i payload hstage
      unfold parsePayload at h
      split at h
      · rename_i hmin
        cases h
        exact .payload hruns payload hstage hmin rfl
      · simp only at h
        split at h
        · rename_i hfail
          cases h
          rw [hfail] at hec
          cases hec
        · cases h
  · rw [parsePass_of_not_runs hruns] at h
    cases h
    exact .stops hruns rfl

/-! ## The invariant -/

/-- What holds before every pass of every run. -/
structure Invariant (s : ParseState) : Prop where
  nodup : s.client.streamIds.Nodup
  ids : ∀ id ∈ s.client.streamIds, id ≤ s.client.lastClientId
  stage : ∀ payload, s.client.parserStage = .payload payload →
    ∃ header, s.client.lastHeader = some header ∧ Accepted s.client.lastClientId header payload
  zero : s.hasZeroPayload → ∃ payload, s.client.parserStage = .payload payload ∧ payload.totalSize = 0 ∧
    payload.consumedSize = 0

theorem Accepted.mono {n m : Nat} {header : FrameHeader} {payload : PayloadStage} (h : Accepted n header payload)
    (hle : n ≤ m) : Accepted m header payload :=
  ⟨h.totalSize, h.minReadSize, h.lt, h.consumedSize, h.streamId.trans hle, h.kind⟩

theorem Invariant.of_next {s t : ParseState} (h : Invariant s) (hpass : parsePass s = .next t) : Invariant t := by
  obtain ⟨-, hnext⟩ := parsePass_next hpass
  cases hnext with
  | header c' header hstage hlen heq hvalidate ht =>
      have huntouched := validateFrameHeader_untouched { s.client with rbuf := s.client.rbuf.drop 9 } header
      have hvalid := validateFrameHeader_valid (congrArg Prod.snd hvalidate)
      rw [hvalidate] at huntouched
      subst ht
      have hids : c'.lastClientId = s.client.lastClientId := huntouched.lastClientId
      have hsub : c'.streamIds.Sublist s.client.streamIds := huntouched.streamIds
      refine ⟨hsub.nodup h.nodup, fun id hmem => ?_, fun payload hpayload => ?_, fun hzero => ?_⟩
      · exact (h.ids id (hsub.subset hmem)).trans_eq hids.symm
      · cases hpayload
        refine ⟨acceptedHeader c'.lastHeader header, rfl, accepted_acceptedHeader ?_ fun value htype => ?_⟩
        · exact hids.symm ▸ hvalid
        · rw [heq] at htype
          exact FrameType.lt_of_ofByte_unknown htype
      · exact ⟨_, rfl, by simpa [acceptHeader] using hzero, rfl⟩
  | payload payload hstage hmin hec ht =>
      obtain ⟨header, hheader, hacc⟩ := h.stage payload hstage
      subst ht
      rw [hheader, Option.getD_some] at hec ⊢
      obtain ⟨⟨n, hstep⟩, hstage'⟩ := processFramePayload_pass hacc hstage hmin hec
      refine ⟨hstep.streamIds.nodup h.nodup, fun id hmem => ?_, fun payload' hpayload' => ?_, fun hzero => by cases hzero⟩
      · exact (h.ids id (hstep.streamIds.subset hmem)).trans_eq hstep.lastClientId.symm
      · refine ⟨header, hstep.lastHeader.trans hheader, ?_⟩
        rcases hstage' with hend | ⟨payload'', hpayload'', hacc''⟩
        · rw [hend] at hpayload'; cases hpayload'
        · rw [hpayload''] at hpayload'
          cases hpayload'
          exact hacc''.mono (Nat.le_of_eq hstep.lastClientId.symm)

/-- What a return leaves of the client: all but the flag. -/
structure Returned (c c' : Client) : Prop where
  rbuf : c'.rbuf = c.rbuf
  parserStage : c'.parserStage = c.parserStage
  lastHeader : c'.lastHeader = c.lastHeader
  stopped : c'.stopped = c.stopped
  lastClientId : c'.lastClientId = c.lastClientId
  openStreams : c'.openStreams = c.openStreams

theorem DonePass.returned {s : ParseState} {c' : Client} (h : DonePass s c') : Returned s.client c' := by
  cases h with
  | stops hstop heq => subst heq; exact ⟨rfl, rfl, rfl, rfl, rfl, rfl⟩
  | header hruns hstage hlen heq => subst heq; exact ⟨rfl, rfl, rfl, rfl, rfl, rfl⟩
  | payload hruns payload hstage hlen heq => subst heq; exact ⟨rfl, rfl, rfl, rfl, rfl, rfl⟩

theorem Invariant.of_returned {s : ParseState} {c' : Client} (h : Invariant s) (hreturned : Returned s.client c') :
    Invariant { client := c' } := by
  have hids : c'.streamIds = s.client.streamIds := by rw [streamIds, hreturned.openStreams]; rfl
  refine ⟨by rw [hids]; exact h.nodup, ?_, ?_, fun hzero => by cases hzero⟩
  · simp only [hids, hreturned.lastClientId]
    exact h.ids
  · simp only [hreturned.parserStage, hreturned.lastHeader, hreturned.lastClientId]
    exact h.stage

theorem Invariant.of_resume {c c' : Client} (h : Invariant { client := c }) (hresume : Resume c c') :
    Invariant { client := c' } := by
  cases hresume with
  | read chunk need nonempty fits => exact ⟨h.nodup, h.ids, h.stage, fun hzero => by cases hzero⟩
  | rely hrely =>
      obtain ⟨new, hsub, hnew, hless⟩ := hrely.streamIds
      have hdisjoint : c.streamIds.Disjoint new := fun id hmem hmem' => by
        have := h.ids id hmem
        have := (hless id hmem').1
        simp only at *
        omega
      refine ⟨hsub.nodup (h.nodup.append hnew hdisjoint), fun id hmem => ?_, fun payload hpayload => ?_,
        fun hzero => by cases hzero⟩
      · rcases List.mem_append.1 (hsub.subset hmem) with hold | hmem'
        · exact (h.ids id hold).trans hrely.lastClientId
        · exact (hless id hmem').2
      · obtain ⟨header, hheader, hacc⟩ := h.stage payload (hrely.parserStage.symm.trans hpayload)
        exact ⟨header, hrely.lastHeader.trans hheader, hacc.mono hrely.lastClientId⟩

theorem Reachable.invariant {ok : ParseState → Prop} {s : ParseState} (h : Reachable ok s) : Invariant s := by
  induction h with
  | @connect c hfresh =>
      have hids : c.streamIds = [] := congrArg (List.map Stream.id) hfresh.openStreams
      refine ⟨?_, fun id hmem => ?_, fun payload hpayload => ?_, fun hzero => by cases hzero⟩
      · simp only [hids, List.nodup_nil]
      · simp only [hids, List.not_mem_nil] at hmem
      · simp only [hfresh.parserStage] at hpayload
        cases hpayload
  | pass _ _ hpass ih => exact ih.of_next hpass
  | call _ _ hdone hec hresume ih =>
      have hreturned := (parsePass_done hdone hec).returned
      induction hresume with
      | refl => exact ih.of_returned hreturned
      | tail _ hstep ih' => exact ih'.of_resume hstep

end Rad.Http2
