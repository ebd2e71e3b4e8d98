import Rad.Http2.Client.Lemmas.Frames
import Rad.Http2.Client.Lemmas.Invariant

/-!
# Progress of the parser

A pass on a frame that is cut in the wrong place leads to a pass on the same frame. Every other pass makes a measure
smaller.
-/

namespace Rad.Http2

open Lib Client

/-! ## Passes that lead to themselves -/

/-- A HEADERS frame whose priority is cut. -/
structure PriorityTrap (header : FrameHeader) (payload : PayloadStage) (s : ParseState) : Prop where
  stage : InPayload s.client header payload
  min : payload.minReadSize ≤ s.client.rbuf.length
  running : s.client.stopped = false
  bytes : s.client.rbuf ≠ []
  type : header.type = .headers
  isOpen : (s.client.findStream header.streamId).isSome
  cut : PriorityCut header.flags s.client.rbuf payload

theorem readFrame_of_priorityCut {flags : UInt8} {rbuf : Bytes} {payload : PayloadStage}
    (h : PriorityCut flags rbuf payload) : readFrame flags rbuf payload = { res := false, rbuf, payload } := by
  obtain ⟨hpriority, hpadded, hless, hshort⟩ := h
  have hpadding : readPaddingLength flags rbuf payload = { res := true, rbuf, payload } := by
    unfold readPaddingLength
    rw [if_pos]
    cases hflag : hasFlag flags paddedFlag
    · rfl
    · simpa using hpadded hflag
  have hread : readPriority flags rbuf payload = { res := false, rbuf, payload } := by
    unfold readPriority
    rw [if_neg (by simp [hpriority]; omega), if_pos hshort]
  simp [readFrame, hpadding, hread, PayloadRead.andThen, failed]

theorem PriorityTrap.next {header : FrameHeader} {payload : PayloadStage} {s : ParseState}
    (h : PriorityTrap header payload s) : ∃ t, parsePass s = .next t ∧ PriorityTrap header payload t := by
  obtain ⟨it, hfind⟩ := Option.isSome_iff_exists.1 h.isOpen
  have hmin := h.min
  refine ⟨{ client := s.client.reads { res := false, rbuf := s.client.rbuf, payload } }, ?_,
    ⟨h.stage.lastHeader, rfl⟩, h.min, h.running, h.bytes, h.type, h.isOpen, h.cut⟩
  rw [parsePass_of_runs ⟨h.running, .inl h.bytes⟩, h.stage.parserStage, h.stage.lastHeader]
  simp only [Option.getD_some, parsePayload]
  rw [if_neg (by omega)]
  simp only [processFramePayload, h.type]
  rw [processHeadersFramePayload_eq hfind, readFrame_of_priorityCut h.cut]
  simp [failed, reads]

/-- A GOAWAY frame that is cut behind its minimum. -/
structure GoawayTrap (header : FrameHeader) (payload : PayloadStage) (s : ParseState) : Prop where
  stage : InPayload s.client header payload
  min : payload.minReadSize ≤ s.client.rbuf.length
  running : s.client.stopped = false
  bytes : s.client.rbuf ≠ []
  type : header.type = .goaway
  cut : s.client.rbuf.length < payload.totalSize

theorem GoawayTrap.next {header : FrameHeader} {payload : PayloadStage} {s : ParseState}
    (h : GoawayTrap header payload s) : ∃ t, parsePass s = .next t ∧ GoawayTrap header payload t := by
  have hmin := h.min
  refine ⟨{ client := { s.client with rbufExhausted := true } }, ?_, ⟨h.stage.lastHeader, h.stage.parserStage⟩, h.min,
    h.running, h.bytes, h.type, h.cut⟩
  rw [parsePass_of_runs ⟨h.running, .inl h.bytes⟩, h.stage.parserStage, h.stage.lastHeader]
  simp only [Option.getD_some, parsePayload]
  rw [if_neg (by omega)]
  simp only [processFramePayload, h.type, processGoawayFramePayload]
  rw [if_pos h.cut]
  simp [failed]

/-! ## The measure -/

/-- What is left to do: each byte counts twice, for the pass that reads it may lead to a payload stage. -/
def ParseState.measure (s : ParseState) : Nat :=
  2 * s.client.rbuf.length + s.client.openStreams.length +
    match s.client.parserStage with
    | .header => 0
    | .payload _ => 1

theorem Invariant.visits {s t : ParseState} (h : Invariant s) (hvisits : Visits parsePass s t) : Invariant t :=
  hvisits.preserves (fun _ _ _ hu hpass => hu.of_next hpass) h

theorem not_stuck_of_not_starved {s : ParseState} {header : FrameHeader} {payload : PayloadStage} (hruns : Runs s)
    (hheader : s.client.lastHeader = some header) (hstage : s.client.parserStage = .payload payload)
    (hacc : Accepted s.client.lastClientId header payload) (hmin : payload.minReadSize ≤ s.client.rbuf.length)
    (hne : s.client.rbuf ≠ [] ∨ payload.totalSize = 0 ∧ payload.consumedSize = 0) (hstarved : ¬Starved s) :
    ¬s.client.Stuck header payload := by
  have hkind := hacc.kind
  have htotal := hacc.totalSize
  rintro (⟨htype, hopen, hcut⟩ | ⟨htype, hcut⟩)
  · simp only [Kind, htype] at hkind
    have hbytes := hne.resolve_right (by omega)
    exact hstarved (.priority header payload ⟨hheader, hstage⟩ hruns.stopped hbytes htype hopen hcut)
  · have height : 8 ≤ s.client.rbuf.length := by
      simpa only [hacc.minReadSize, FrameHeader.minPayloadSize, htype] using hmin
    exact hstarved (.goaway header payload ⟨hheader, hstage⟩ hruns.stopped htype height (htotal ▸ hcut))

theorem measure_lt {s t : ParseState} (h : Invariant s) (hstarved : ¬Starved s) (hpass : parsePass s = .next t) :
    t.measure < s.measure := by
  obtain ⟨hruns, hnext⟩ := parsePass_next hpass
  cases hnext with
  | header c' header hstage hlen heq hvalidate ht =>
      have huntouched := validateFrameHeader_untouched { s.client with rbuf := s.client.rbuf.drop 9 } header
      rw [hvalidate] at huntouched
      subst ht
      have hrbuf : c'.rbuf.length + 9 = s.client.rbuf.length := by
        rw [huntouched.rbuf, List.length_drop]; omega
      have hopen : c'.openStreams.length ≤ s.client.openStreams.length := by
        simpa [streamIds] using huntouched.streamIds.length_le
      simp only [ParseState.measure, acceptHeader, hstage]
      omega
  | payload payload hstage hmin hec ht =>
      obtain ⟨header, hheader, hacc⟩ := h.stage payload hstage
      subst ht
      rw [hheader, Option.getD_some] at hec ⊢
      have hne : s.client.rbuf ≠ [] ∨ payload.totalSize = 0 ∧ payload.consumedSize = 0 := by
        refine hruns.input.imp_right fun hzero => ?_
        obtain ⟨payload', hstage', hsizes⟩ := h.zero hzero
        rw [hstage] at hstage'
        cases hstage'
        exact hsizes
      obtain ⟨⟨n, hstep⟩, -⟩ := processFramePayload_pass hacc hstage hmin hec
      have hshrinks := processFramePayload_shrinks hacc hstage hmin hne
        (not_stuck_of_not_starved hruns hheader hstage hacc hmin hne hstarved) hec
      have hrbuf := hstep.length_rbuf
      have hopen := hstep.openStreams
      simp only [ParseState.measure, hstage]
      rcases hshrinks with hless | hend | hclosed
      · split <;> omega
      · simp only [hend]; omega
      · split <;> omega

/-! ## Starved states -/

/-- A pass in a starved state returns with the bytes in the buffer and the flag not set, or the loop does not end. -/
theorem Starved.returns {s : ParseState} (h : Invariant s) (hstarved : Starved s) :
    (parsePass s = .done (s.client, none) ∧ s.client.rbuf ≠ [] ∧ s.client.rbufExhausted = false) ∨
      ∀ r, ¬Returns parsePass s r := by
  cases hstarved with
  | stopped bytes stopped flag =>
      exact .inl ⟨parsePass_of_not_runs fun hruns => by simpa [stopped] using hruns.stopped, bytes, flag⟩
  | short header payload stage running bytes short flag =>
      obtain ⟨header', hheader', hacc⟩ := h.stage payload stage.parserStage
      obtain rfl : header = header' := Option.some.inj (stage.lastHeader.symm.trans hheader')
      refine .inl ⟨?_, bytes, flag⟩
      rw [parsePass_of_runs ⟨running, .inl bytes⟩, stage.parserStage, stage.lastHeader]
      simp only [Option.getD_some, parsePayload]
      rw [if_pos (by rw [hacc.minReadSize]; exact short)]
  | priority header payload stage running bytes type isOpen cut =>
      obtain ⟨header', hheader', hacc⟩ := h.stage payload stage.parserStage
      obtain rfl : header = header' := Option.some.inj (stage.lastHeader.symm.trans hheader')
      have hmin : payload.minReadSize = 0 := by rw [hacc.minReadSize, FrameHeader.minPayloadSize, type]
      exact .inr (not_returns_of_trap (fun _ htrap => htrap.next)
        (PriorityTrap.mk stage (by omega) running bytes type isOpen cut))
  | goaway header payload stage running type more cut =>
      obtain ⟨header', hheader', hacc⟩ := h.stage payload stage.parserStage
      obtain rfl : header = header' := Option.some.inj (stage.lastHeader.symm.trans hheader')
      have hmin : payload.minReadSize = 8 := by rw [hacc.minReadSize, FrameHeader.minPayloadSize, type]
      have hbytes : s.client.rbuf ≠ [] := by intro hnil; simp [hnil] at more
      exact .inr (not_returns_of_trap (fun _ htrap => htrap.next)
        (GoawayTrap.mk stage (by omega) running hbytes type (by rw [hacc.totalSize]; exact cut)))

theorem needsReading_of_done {s : ParseState} (h : Invariant s) (hstarved : ¬Starved s) {c' : Client} {ec : Option Error}
    (hdone : parsePass s = .done (c', ec)) (hec : failed ec = false) : c'.rbuf = [] ∨ c'.rbufExhausted = true := by
  by_cases hnil : s.client.rbuf = []
  · exact .inl ((parsePass_done hdone hec).returned.rbuf.trans hnil)
  · refine .inr ?_
    cases parsePass_done hdone hec with
    | stops hstop heq =>
        subst heq
        by_contra hflag
        have hstopped : s.client.stopped = true := by
          by_contra hrun
          exact hstop ⟨by simpa using hrun, .inl hnil⟩
        exact hstarved (.stopped hnil hstopped (by simpa using hflag))
    | header hruns hstage hlen heq => subst heq; rfl
    | payload hruns payload hstage hlen heq =>
        subst heq
        by_contra hflag
        obtain ⟨header, hheader, hacc⟩ := h.stage payload hstage
        exact hstarved (.short header payload ⟨hheader, hstage⟩ hruns.stopped hnil (hacc.minReadSize ▸ hlen)
          (by simpa using hflag))

/-! ## Frames take their own bytes

The run of one HEADERS or DATA frame, from its header on.
-/

theorem NoWrap.of_body {flags : UInt8} {payload : PayloadStage} (h : Body flags payload)
    (hsized : Sized flags payload.totalSize) : NoWrap flags payload := by
  have hstart := h.start
  have hfits := h.fits
  refine ⟨?_, ?_, ?_⟩
  · rw [h.dataLen_eq hsized]; omega
  · rw [h.consumedData_eq hsized]; omega
  · rw [h.dataLen_eq hsized, h.consumedData_eq hsized]; omega

theorem noWrap_of_phase {flags : UInt8} {rbuf : Bytes} {payload : PayloadStage} (hphase : Phase flags payload)
    (hsized : Sized flags payload.totalSize) (hwraps : ¬PaddingWraps flags rbuf payload) {r : PayloadRead}
    (hr : r = (readPaddingLength flags rbuf payload).andThen (readPriority flags)) (hres : r.res = true)
    (hec : failed r.ec = false) : NoWrap flags r.payload ∧ NoWrap flags (readDataContent flags r.rbuf r.payload).payload := by
  subst hr
  obtain ⟨n₁, htakes₁⟩ := readPaddingLength_takes flags rbuf payload
  obtain ⟨-, hfitted, -⟩ := readPaddingLength_phase hphase hsized hwraps
  obtain ⟨hres₁, hec₁, -⟩ := PayloadRead.andThen_res hres hec
  obtain ⟨-, hbody, -⟩ := @readPriority_phase flags (readPaddingLength flags rbuf payload).rbuf _ (hfitted hres₁ hec₁)
  obtain ⟨n₂, htakes₂⟩ := readPriority_takes flags (readPaddingLength flags rbuf payload).rbuf
    (readPaddingLength flags rbuf payload).payload
  obtain ⟨eres, eec, erbuf, epayload⟩ := PayloadRead.andThen_go (f := readPriority flags) hres₁ hec₁
  rw [eres] at hres
  rw [eec] at hec
  rw [erbuf, epayload]
  have hbody₂ := hbody hres hec
  have hsized₂ : Sized flags (readPriority flags (readPaddingLength flags rbuf payload).rbuf
      (readPaddingLength flags rbuf payload).payload).payload.totalSize := by
    rw [htakes₂.totalSize, htakes₁.totalSize]; exact hsized
  generalize readPriority flags (readPaddingLength flags rbuf payload).rbuf
    (readPaddingLength flags rbuf payload).payload = r₂ at hbody₂ hsized₂
  obtain ⟨n₃, htakes₃⟩ := readDataContent_takes flags r₂.rbuf r₂.payload
  obtain ⟨-, hbody₃, -⟩ := @readDataContent_phase flags r₂.rbuf r₂.payload hbody₂ hsized₂
  exact ⟨.of_body hbody₂ hsized₂, .of_body hbody₃ (htakes₃.totalSize ▸ hsized₂)⟩

/-! ## The run of a frame -/

/-- `n` bytes of the frame are read, or all of them. -/
structure InFrame (header : FrameHeader) (n : Nat) (u : ParseState) : Prop where
  base : Invariant u
  ends : (u.client.parserStage = .header ∧ n = header.length) ∨
    ∃ payload, InPayload u.client header payload ∧ payload.consumedSize = n ∧ Reading u.client header payload

section

variable {header : FrameHeader} {n : Nat} {u : ParseState}

theorem InFrame.reading (h : InFrame header n u) {payload : PayloadStage}
    (hstage : u.client.parserStage = .payload payload) :
    u.client.lastHeader = some header ∧ payload.consumedSize = n ∧ Reading u.client header payload ∧
      Accepted u.client.lastClientId header payload := by
  rcases h.ends with ⟨hend, -⟩ | ⟨payload', hin, hcount, hreading⟩
  · rw [hstage] at hend; cases hend
  · have hsame := hin.parserStage
    rw [hstage] at hsame
    cases hsame
    obtain ⟨header', hheader', hacc⟩ := h.base.stage payload hstage
    obtain rfl : header = header' := Option.some.inj (hin.lastHeader.symm.trans hheader')
    exact ⟨hin.lastHeader, hcount, hreading, hacc⟩

theorem InFrame.of_next {v : ParseState} (h : InFrame header n u) (hparts : header.isReadInParts)
    {payload : PayloadStage} (hstage : u.client.parserStage = .payload payload) (hwhole : Whole u)
    (hpass : parsePass u = .next v) :
    ∃ m, PartRead u.client header payload m v.client ∧ InFrame header (n + m) v := by
  obtain ⟨hheader, hcount, hreading, hacc⟩ := h.reading hstage
  have hbase := h.base.of_next hpass
  obtain ⟨-, hnext⟩ := parsePass_next hpass
  cases hnext with
  | header c' header' hstage' hlen heq hvalidate ht => rw [hstage] at hstage'; cases hstage'
  | payload payload' hstage' hmin hec ht =>
      rw [hstage] at hstage'
      cases hstage'
      subst ht
      rw [hheader, Option.getD_some] at hec hbase ⊢
      obtain ⟨m, hread⟩ := processFramePayload_reads h.base.nodup hacc hparts hreading
        (hwhole.padding header payload ⟨hheader, hstage⟩) hec
      refine ⟨m, hread, hbase, hread.ends.imp (fun hend => ⟨hend.1, ?_⟩) ?_⟩
      · rw [← hcount, hend.2, hacc.totalSize]
      · rintro ⟨payload', hstage', -, hcount', hreading', -⟩
        exact ⟨payload', ⟨hread.step.lastHeader.trans hheader, hstage'⟩, by omega, hreading'⟩

theorem InFrame.of_resume {c c' : Client} (h : InFrame header n { client := c }) (hresume : Resume c c') :
    InFrame header n { client := c' } := by
  refine ⟨h.base.of_resume hresume, ?_⟩
  cases hresume with
  | read chunk need nonempty fits =>
      rcases h.ends with hend | ⟨payload, hin, hcount, hreading⟩
      · exact .inl hend
      · exact .inr ⟨payload, ⟨hin.lastHeader, hin.parserStage⟩, hcount, hreading.congr id⟩
  | rely hrely =>
      rcases h.ends with ⟨hend, hall⟩ | ⟨payload, hin, hcount, hreading⟩
      · exact .inl ⟨hrely.parserStage.trans hend, hall⟩
      · obtain ⟨-, -, -, hacc⟩ := h.reading hin.parserStage
        exact .inr ⟨payload, ⟨hrely.lastHeader.trans hin.lastHeader, hrely.parserStage.trans hin.parserStage⟩, hcount,
          hreading.of_rely hrely hacc.streamId⟩

theorem InFrame.of_returned {c' : Client} (h : InFrame header n u) (hreturned : Returned u.client c') :
    InFrame header n { client := c' } := by
  refine ⟨h.base.of_returned hreturned, ?_⟩
  rcases h.ends with ⟨hend, hall⟩ | ⟨payload, hin, hcount, hreading⟩
  · exact .inl ⟨hreturned.parserStage.trans hend, hall⟩
  · have hfind : c'.findStream header.streamId = u.client.findStream header.streamId := by
      rw [findStream, findStream, hreturned.openStreams]
    exact .inr ⟨payload, ⟨hreturned.lastHeader.trans hin.lastHeader, hreturned.parserStage.trans hin.parserStage⟩, hcount,
      hreading.congr (by rw [hfind]; exact id)⟩

theorem inFrame_start {s t : ParseState} (hs : Invariant s) (hstage : s.client.parserStage = .header)
    (hpass : parsePass s = .next t) (hheader : t.client.lastHeader = some header) : InFrame header 0 t := by
  refine ⟨hs.of_next hpass, .inr ?_⟩
  obtain ⟨-, hnext⟩ := parsePass_next hpass
  cases hnext with
  | header c' header' hstage' hlen heq hvalidate ht =>
      subst ht
      exact ⟨_, ⟨hheader, rfl⟩, rfl, .fresh _ _ _ _⟩
  | payload payload hstage' hmin hec ht => rw [hstage] at hstage'; cases hstage'

theorem FrameRun.inFrame {t : ParseState} (ht : InFrame header 0 t) (hparts : header.isReadInParts)
    (hrun : FrameRun Whole t n u) : InFrame header n u := by
  induction hrun with
  | start => exact ht
  | pass _ hstage hwhole hpass ih =>
      obtain ⟨m, hread, hin⟩ := ih.of_next hparts hstage hwhole hpass
      have hlen := hread.step.length_rbuf
      rw [show _ - _ = m by omega]
      exact hin
  | call _ hstage hwhole hdone hec hresume ih =>
      induction hresume with
      | refl => exact ih.of_returned (parsePass_done hdone hec).returned
      | tail _ hstep ih' => exact ih'.of_resume hstep

theorem InFrame.exact (h : InFrame header n u) (htype : header.type = .headers ∨ header.type = .data) (hwhole : Whole u) :
    FrameExact header n u := by
  have hparts : header.isReadInParts := htype.symm.imp_right .inl
  have hsized : ∀ {payload : PayloadStage}, Accepted u.client.lastClientId header payload →
      Sized header.flags payload.totalSize := by
    intro payload hacc
    have hkind := hacc.kind
    rw [hacc.totalSize]
    rcases htype with htype | htype
    · simp only [Kind, htype] at hkind; exact hkind.1
    · simp only [Kind, htype] at hkind; exact hkind.1
  refine ⟨?_, fun hend => ?_, fun payload hstage => ?_, fun payload hstage hopen hres hec => ?_,
    fun payload hstage hruns => ?_⟩
  · rcases h.ends with ⟨-, hall⟩ | ⟨payload, hin, hcount, hreading⟩
    · omega
    · obtain ⟨-, -, -, hacc⟩ := h.reading hin.parserStage
      have := hreading.le
      have := hacc.totalSize
      omega
  · rcases h.ends with ⟨-, hall⟩ | ⟨payload, hin, -⟩
    · exact hall
    · have hstage := hin.parserStage
      rw [hend] at hstage
      cases hstage
  · obtain ⟨hheader, hcount, -, hacc⟩ := h.reading hstage
    exact ⟨hheader, hacc.totalSize, hcount⟩
  · obtain ⟨hheader, -, hreading, hacc⟩ := h.reading hstage
    have hphase := hreading.phase hopen (by rcases htype with htype | htype <;> simp [htype])
    have hwraps := (hwhole.padding header payload ⟨hheader, hstage⟩ htype hopen).1
    exact noWrap_of_phase hphase (hsized hacc) hwraps rfl hres hec
  · obtain ⟨hheader, hcount, hreading, hacc⟩ := h.reading hstage
    have hmin : payload.minReadSize = 0 := by
      rw [hacc.minReadSize, FrameHeader.minPayloadSize]
      rcases htype with htype | htype <;> simp [htype]
    cases hpass : parsePass u with
    | done r =>
        refine .inl ⟨r.1, r.2, rfl, ?_⟩
        by_contra hec
        cases parsePass_done hpass (by simpa using hec) with
        | stops hstop heq => exact hstop hruns
        | header _ hstage' hlen heq => rw [hstage] at hstage'; cases hstage'
        | payload _ payload' hstage' hlen heq =>
            rw [hstage] at hstage'
            cases hstage'
            omega
    | next v =>
        obtain ⟨m, hread, hin⟩ := h.of_next hparts hstage hwhole hpass
        have htotal := hacc.totalSize
        refine .inr ⟨m, v, rfl, hread.step.rbuf, ?_, fun hall => ?_, fun hne hless => ?_⟩
        · rcases hin.ends with ⟨-, hall⟩ | ⟨payload', hin', hcount', hreading'⟩
          · omega
          · obtain ⟨-, -, -, hacc'⟩ := hin.reading hin'.parserStage
            have := hreading'.le
            have := hacc'.totalSize
            omega
        · have := hread.all (by omega)
          omega
        · exact hread.moves hne (by omega) fun hopen => hwhole.priority header payload ⟨hheader, hstage⟩ hopen hne

end

end Rad.Http2
