import Rad.Http2.Client.Lemmas.Frames

/-!
# Complete frames are delivered

In a run whose passes delay no frame, a frame that is read to its end is left behind at once: the stage counts all the
bytes of the frame only while there is something to make a further pass for.
-/

namespace Rad.Http2

open Lib Client

/-! ## SETTINGS frames without values -/

theorem processSettingsFramePayload_of_read {c : Client} {header : FrameHeader} {payload : PayloadStage}
    (hall : payload.totalSize ≤ payload.consumedSize) :
    (c.processSettingsFramePayload header payload).1.parserStage = .header ∧
      (hasFlag header.flags settingsAckFlag = false → c.processSettingsFramePayload header payload = ({ c with
        parserStage := .header, receivedConnectionSettings := true
        pendingSettingsAcks := (c.pendingSettingsAcks + 1) % 2 ^ 32 }, none)) := by
  have hread : c.readSettings payload = (c, payload, .complete) := by
    rw [readSettings, if_neg (by omega)]
  unfold processSettingsFramePayload
  simp only [hread]
  refine ⟨?_, fun hack => by simp [hack]⟩
  split
  · rfl
  · split
    · rfl
    · exact (applyLocalSettings_untouched _ _).parserStage

/-- With less than the minimum in the buffer, no frame is complete but a SETTINGS frame without values. -/
theorem Accepted.emptySettings_of_short {n k : Nat} {header : FrameHeader} {payload : PayloadStage}
    (h : Accepted n header payload) (hshort : k < payload.minReadSize)
    (hall : payload.totalSize ≤ payload.consumedSize + k) : EmptySettings header ∧ payload.minReadSize = 6 := by
  have hkind := h.kind
  have htotal := h.totalSize
  have hmin := h.minReadSize
  unfold FrameHeader.minPayloadSize at hmin
  cases htype : header.type with
  | settings =>
      simp only [htype] at hmin
      simp only [Kind, htype] at hkind
      split at hmin
      · omega
      · rename_i hack
        exact ⟨⟨htype, by omega, by simpa using hack⟩, hmin⟩
  | _ =>
      simp only [htype] at hmin
      simp only [Kind, htype] at hkind <;> omega

/-! ## The invariant -/

/-- The invariant of the runs in which no frame is delayed. -/
structure Orderly (s : ParseState) : Prop where
  base : Invariant s
  reading : ∀ header payload, InPayload s.client header payload → header.isReadInParts → Reading s.client header payload
  ended : s.client.stopped = false → ∀ payload, s.client.parserStage = .payload payload →
    payload.consumedSize = payload.totalSize → s.hasZeroPayload ∨ s.client.rbuf ≠ []

/-- Of a frame that is not read in parts some bytes are missing, unless it has none. -/
theorem Accepted.lt_of_not_parts {n : Nat} {header : FrameHeader} {payload : PayloadStage} (h : Accepted n header payload)
    (hparts : ¬header.isReadInParts) : payload.consumedSize < payload.totalSize ∨
      header.type = .settings ∧ payload.totalSize = 0 ∧ payload.consumedSize = 0 := by
  have hkind := h.kind
  rw [h.totalSize]
  cases htype : header.type with
  | data => exact absurd (.inl htype) hparts
  | headers => exact absurd (.inr (.inl htype)) hparts
  | continuation => exact absurd (.inr (.inr htype)) hparts
  | settings =>
      simp only [Kind, htype] at hkind
      exact hkind.2.2.2.imp_right fun h => ⟨rfl, h⟩
  | _ => simp only [Kind, htype] at hkind <;> omega

theorem Orderly.le {s : ParseState} (h : Orderly s) {payload : PayloadStage}
    (hstage : s.client.parserStage = .payload payload) : payload.consumedSize ≤ payload.totalSize := by
  obtain ⟨header, hheader, hacc⟩ := h.base.stage payload hstage
  by_cases hparts : header.isReadInParts
  · exact (h.reading header payload ⟨hheader, hstage⟩ hparts).le
  · rcases hacc.lt_of_not_parts hparts with hlt | ⟨-, htotal, hconsumed⟩ <;> omega

theorem Orderly.of_next {s t : ParseState} (h : Orderly s) (htimely : Timely s) (hpass : parsePass s = .next t) :
    Orderly t := by
  refine ⟨h.base.of_next hpass, ?_, ?_⟩ <;> obtain ⟨hruns, hnext⟩ := parsePass_next hpass
  · intro header' payload' hin hparts
    cases hnext with
    | header c' header hstage hlen heq hvalidate ht =>
        subst ht
        have hstage' := hin.parserStage
        cases hstage'
        exact .fresh _ _ _ _
    | payload payload hstage hmin hec ht =>
        obtain ⟨header, hheader, hacc⟩ := h.base.stage payload hstage
        subst ht
        rw [hheader, Option.getD_some] at hec hin ⊢
        obtain ⟨⟨m, hstep⟩, -⟩ := processFramePayload_pass hacc hstage hmin hec
        obtain rfl : header = header' :=
          Option.some.inj (hheader.symm.trans (hstep.lastHeader.symm.trans hin.lastHeader))
        obtain ⟨n, -, hends, -, -⟩ := processFramePayload_reads h.base.nodup hacc hparts
          (h.reading header payload ⟨hheader, hstage⟩ hparts) (htimely.padding header payload ⟨hheader, hstage⟩) hec
        rcases hends with ⟨hend, -⟩ | ⟨payload'', hstage'', -, -, hreading, -⟩
        · rw [hin.parserStage] at hend; cases hend
        · rw [hin.parserStage] at hstage''
          cases hstage''
          exact hreading
  · intro hstopped payload' hstage' hall
    cases hnext with
    | header c' header hstage hlen heq hvalidate ht =>
        subst ht
        cases hstage'
        exact .inl (by simpa [acceptHeader] using hall.symm)
    | payload payload hstage hmin hec ht =>
        obtain ⟨header, hheader, hacc⟩ := h.base.stage payload hstage
        subst ht
        rw [hheader, Option.getD_some] at hec hstage' ⊢
        by_cases hparts : header.isReadInParts
        · obtain ⟨n, hstep, hends, -, -⟩ := processFramePayload_reads h.base.nodup hacc hparts
            (h.reading header payload ⟨hheader, hstage⟩ hparts) (htimely.padding header payload ⟨hheader, hstage⟩) hec
          rcases hends with ⟨hend, -⟩ | ⟨payload'', hstage'', htotal, hcount, -, hrefused⟩
          · rw [hstage'] at hend; cases hend
          · rw [hstage'] at hstage''
            cases hstage''
            -- the block is refused, and the frame is at the end of the buffer
            refine .inr fun hnil => htimely.block header payload ⟨hheader, hstage⟩ (hrefused hall) ?_
            have hlen := hstep.length_rbuf
            simp only at hnil
            rw [hnil] at hlen
            simp only [List.length_nil] at hlen
            omega
        · obtain ⟨-, hend | ⟨payload'', hstage'', hacc''⟩⟩ := processFramePayload_pass hacc hstage hmin hec
          · rw [hstage'] at hend; cases hend
          · rw [hstage'] at hstage''
            cases hstage''
            rcases hacc''.lt_of_not_parts hparts with hlt | ⟨htype, htotal, -⟩
            · omega
            · -- a frame without values is read at once
              have hsame : payload.totalSize = payload'.totalSize := hacc.totalSize.trans hacc''.totalSize.symm
              have hend := (@processSettingsFramePayload_of_read s.client header payload (by omega)).1
              simp only [processFramePayload, htype] at hstage'
              rw [hend] at hstage'
              cases hstage'

/-! ## Calls -/

theorem Orderly.of_resume {c c' : Client} (h : Orderly { client := c }) (hresume : Resume c c') :
    Orderly { client := c' } := by
  refine ⟨h.base.of_resume hresume, ?_, ?_⟩
  · intro header payload hin hparts
    cases hresume with
    | read chunk need nonempty fits => exact (h.reading header payload ⟨hin.lastHeader, hin.parserStage⟩ hparts).congr id
    | rely hrely =>
        have hheader := hrely.lastHeader.symm.trans hin.lastHeader
        have hstage := hrely.parserStage.symm.trans hin.parserStage
        obtain ⟨header', hheader', hacc⟩ := h.base.stage payload hstage
        obtain rfl : header = header' := Option.some.inj (hheader.symm.trans hheader')
        exact (h.reading header payload ⟨hheader, hstage⟩ hparts).of_rely hrely hacc.streamId
  · intro hstopped payload hstage hall
    refine .inr ?_
    cases hresume with
    | read chunk need nonempty fits => simp [receive, nonempty]
    | rely hrely =>
        have hrun : c.stopped = false := by
          cases hc : c.stopped
          · rfl
          · simp [hrely.stopped hc] at hstopped
        rcases h.ended hrun payload (hrely.parserStage.symm.trans hstage) hall with hzero | hne
        · cases hzero
        · simpa only [hrely.rbuf] using hne

theorem Orderly.of_done {s : ParseState} (h : Orderly s) (htimely : Timely s) {c' : Client} {ec : Option Error}
    (hdone : parsePass s = .done (c', ec)) (hec : failed ec = false) : Orderly { client := c' } := by
  have hpass := parsePass_done hdone hec
  have hreturned := hpass.returned
  refine ⟨h.base.of_returned hreturned, ?_, ?_⟩
  · intro header payload hin hparts
    have hfind : c'.findStream header.streamId = s.client.findStream header.streamId := by
      rw [findStream, findStream, hreturned.openStreams]
    exact (h.reading header payload ⟨hreturned.lastHeader.symm.trans hin.lastHeader,
      hreturned.parserStage.symm.trans hin.parserStage⟩ hparts).congr (by rw [hfind]; exact id)
  · intro hstopped payload hstage hall
    have hrun : s.client.stopped = false := hreturned.stopped.symm.trans hstopped
    have hstage' := hreturned.parserStage.symm.trans hstage
    refine .inr ?_
    rcases h.ended hrun payload hstage' hall with hzero | hne
    · have hruns : Runs s := ⟨hrun, .inr hzero⟩
      cases hpass with
      | stops hstop heq => exact absurd hruns hstop
      | header _ hheader hlen heq => rw [hheader] at hstage'; cases hstage'
      | payload _ payload' hpayload hlen heq =>
          rw [hstage'] at hpayload
          cases hpayload
          obtain ⟨header, hheader, hacc⟩ := h.base.stage payload hstage'
          obtain ⟨hempty, hsix⟩ := hacc.emptySettings_of_short hlen (by omega)
          have := htimely.settings header payload ⟨hheader, hstage'⟩ hempty
          omega
    · simpa only [hreturned.rbuf] using hne

theorem Reachable.orderly {s : ParseState} (h : Reachable Timely s) : Orderly s := by
  induction h with
  | @connect c hfresh =>
      have hconnect : Reachable Timely { client := c } := .connect hfresh
      refine ⟨hconnect.invariant, fun header payload hin => ?_, fun _ payload hstage => ?_⟩
      · have hstage := hin.parserStage
        simp only [hfresh.parserStage] at hstage
        cases hstage
      · simp only [hfresh.parserStage] at hstage
        cases hstage
  | pass _ htimely hpass ih => exact ih.of_next htimely hpass
  | call _ htimely hdone hec hresume ih =>
      induction hresume with
      | refl => exact ih.of_done htimely hdone hec
      | tail _ hstep ih' => exact ih'.of_resume hstep

theorem Orderly.visits {s t : ParseState} (h : Orderly s) (hvisits : Visits parsePass s t)
    (htimely : ∀ u, Visits parsePass s u → Timely u) : Orderly t :=
  hvisits.preserves (fun u _ hu hu' hpass => hu'.of_next (htimely u hu) hpass) h

/-! ## Returns -/

theorem Orderly.not_waiting {s : ParseState} (h : Orderly s) (htimely : Timely s) {c' : Client} {ec : Option Error}
    (hdone : parsePass s = .done (c', ec)) (hec : failed ec = false) (hstopped : c'.stopped = false) : ¬Waiting c' := by
  unfold Waiting
  cases parsePass_done hdone hec with
  | stops hstop heq =>
      subst heq
      have hnil : s.client.rbuf = [] := by
        by_contra hne
        exact hstop ⟨hstopped, .inl hne⟩
      have hlen : s.client.rbuf.length = 0 := by rw [hnil]; rfl
      split
      · simp only [FrameHeader.neededWriteSize]; omega
      · rename_i payload hstage
        have hle := h.le hstage
        intro hall
        rcases h.ended hstopped payload hstage (by omega) with hzero | hne
        · exact hstop ⟨hstopped, .inr hzero⟩
        · exact hne hnil
  | header hruns hstage hlen heq =>
      subst heq
      simp only [hstage, FrameHeader.neededWriteSize]
      omega
  | payload hruns payload hstage hlen heq =>
      subst heq
      obtain ⟨header, hheader, hacc⟩ := h.base.stage payload hstage
      simp only [hstage]
      intro hall
      obtain ⟨hempty, hsix⟩ := hacc.emptySettings_of_short hlen hall
      have := htimely.settings header payload ⟨hheader, hstage⟩ hempty
      omega

theorem Orderly.acknowledges {s : ParseState} (h : Orderly s) (htimely : Timely s) {header : FrameHeader}
    {payload : PayloadStage} (hin : InPayload s.client header payload) (hempty : EmptySettings header)
    (hstopped : s.client.stopped = false) : ∃ t, parsePass s = .next t ∧ t.client.parserStage = .header ∧
      t.client.rbuf = s.client.rbuf ∧ t.client.pendingSettingsAcks = (s.client.pendingSettingsAcks + 1) % 2 ^ 32 := by
  obtain ⟨header', hheader', hacc⟩ := h.base.stage payload hin.parserStage
  obtain rfl : header = header' := Option.some.inj (hin.lastHeader.symm.trans hheader')
  have hsix := htimely.settings header payload hin hempty
  have hne : s.client.rbuf ≠ [] := by intro hnil; simp [hnil] at hsix
  have hmin : payload.minReadSize = 6 := by
    rw [hacc.minReadSize]
    simp [FrameHeader.minPayloadSize, hempty.type, hempty.ack]
  have hread := (@processSettingsFramePayload_of_read s.client header payload
    (by rw [hacc.totalSize, hempty.length]; omega)).2 hempty.ack
  have hpass : parsePass s = .next { client := (s.client.processSettingsFramePayload header payload).1 } := by
    rw [parsePass_of_runs ⟨hstopped, .inl hne⟩, hin.parserStage, hin.lastHeader]
    simp only [Option.getD_some, parsePayload]
    rw [if_neg (by omega)]
    simp [processFramePayload, hempty.type, hread, failed]
  rw [hread] at hpass
  exact ⟨_, hpass, rfl, rfl, rfl⟩

end Rad.Http2
