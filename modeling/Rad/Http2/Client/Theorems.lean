import Rad.Http2.Client.Lemmas.Delivery
import Rad.Http2.Client.Lemmas.Progress
import Rad.Http2.Client.Lemmas.System

/-!
# Theorems about the frame parser

The states are those before the passes of `parse_frames`, in all the runs of a client: any bytes in any chunks, with
streams being opened and closed in between.
-/

namespace Rad.Http2

open Lib Client

/-! ## Progress -/

/-- In every run, `parse_frames` returns and then asks for more bytes just when it makes no pass in a starved state. -/
theorem parse_progress_iff {c : Client} (h : Reached { client := c }) :
    ParseProgress c ↔ ∀ s, Visits parsePass { client := c } s → ¬Starved s := by
  have hinv := h.invariant
  constructor
  · intro hprogress s hvisits hstarved
    rcases hstarved.returns (hinv.visits hvisits) with ⟨hdone, hbytes, hflag⟩ | hnever
    · rcases hprogress.reads _ _ (hvisits.returns (.done hdone)) rfl with hnil | hset
      · exact hbytes hnil
      · simp [hflag] at hset
    · obtain ⟨r, hreturns⟩ := hprogress.returns
      exact hnever r (hvisits.returns_of hreturns)
  · intro hfine
    refine ⟨exists_returns_of_measure ParseState.measure fun s t hvisits hpass => ?_, fun c' ec hreturns hec => ?_⟩
    · exact measure_lt (hinv.visits hvisits) (hfine s hvisits) hpass
    · obtain ⟨s, hvisits, hdone⟩ := hreturns.exists_last
      exact needsReading_of_done (hinv.visits hvisits) (hfine s hvisits) hdone hec

/-- A new client with the first bytes from the server. -/
def firstRead (chunk : Bytes) : Client := ({} : Client).receive chunk

theorem reached_firstRead {ok : ParseState → Prop} (hok : ok { client := {} }) {chunk : Bytes} (hne : chunk ≠ [])
    (hlen : chunk.length ≤ readBuffSize) : Reachable ok { client := firstRead chunk } :=
  .call (.connect ⟨rfl, rfl, rfl, rfl, rfl⟩) hok rfl rfl (.single (.read chunk rfl hne hlen))

theorem parse_progress_settings :
    Reached { client := firstRead [0, 0, 6, 4, 0, 0, 0, 0, 0, 0, 1, 0, 0, 16, 0] } ∧
      ∀ s, Visits parsePass { client := firstRead [0, 0, 6, 4, 0, 0, 0, 0, 0, 0, 1, 0, 0, 16, 0] } s → ¬Starved s := by
  have hreached : Reached { client := firstRead [0, 0, 6, 4, 0, 0, 0, 0, 0, 0, 1, 0, 0, 16, 0] } :=
    reached_firstRead trivial (by decide) (by decide)
  have hloop : (runLoop parsePass 3 { client := firstRead [0, 0, 6, 4, 0, 0, 0, 0, 0, 0, 1, 0, 0, 16, 0] }).map
      (fun r => r.1.rbuf) = some [] := by decide +kernel
  obtain ⟨r, hreturns, hrbuf⟩ := returns_of_map_runLoop hloop
  refine ⟨hreached, (parse_progress_iff hreached).1 ⟨⟨r, hreturns⟩, fun c' ec hreturns' _ => .inl ?_⟩⟩
  rw [hreturns.unique hreturns'] at hrbuf
  exact hrbuf

/-- The header of a SETTINGS frame with the first three of its six bytes: they stay in the buffer, and the flag is not
set. -/
theorem parse_progress_settings_cut :
    ∃ c, c = firstRead [0, 0, 6, 4, 0, 0, 0, 0, 0, 0, 1, 0] ∧ Reached { client := c } ∧ ¬ParseProgress c := by
  refine ⟨_, rfl, reached_firstRead trivial (by decide) (by decide), fun hprogress => ?_⟩
  have hloop : (runLoop parsePass 2 { client := firstRead [0, 0, 6, 4, 0, 0, 0, 0, 0, 0, 1, 0] }).map
      (fun r => (r.1.rbuf, r.1.rbufExhausted, failed r.2)) = some ([0, 1, 0], false, false) := by decide +kernel
  obtain ⟨⟨c', ec⟩, hreturns, hresult⟩ := returns_of_map_runLoop hloop
  simp only [Prod.mk.injEq] at hresult
  have hreads := hprogress.reads c' ec hreturns hresult.2.2
  simp [hresult.1, hresult.2.1] at hreads

/-! ## Complete frames -/

/-- In a run whose passes delay no frame, no complete frame waits when `parse_frames` returns, and every SETTINGS frame
without values is acknowledged at once. -/
theorem frames_served {c : Client} (h : Reachable Timely { client := c })
    (htimely : ∀ s, Visits parsePass { client := c } s → Timely s) : FramesServed c := by
  have horderly := h.orderly
  refine ⟨fun c' ec hreturns hec hstopped => ?_, fun s header payload hvisits hin hempty hstopped => ?_⟩
  · obtain ⟨s, hvisits, hdone⟩ := hreturns.exists_last
    exact (horderly.visits hvisits htimely).not_waiting (htimely s hvisits) hdone hec hstopped
  · exact (horderly.visits hvisits htimely).acknowledges (htimely s hvisits) hin hempty hstopped

/-- A pass over a frame that is not read in parts, or over a frame header. -/
def isControlPass (s : ParseState) : Bool :=
  match s.client.parserStage, s.client.lastHeader with
  | .payload _, some header =>
    header.type ≠ .headers && header.type ≠ .continuation && header.type ≠ .data &&
      (header.type ≠ .settings || header.length ≠ 0 || 6 ≤ s.client.rbuf.length)
  | _, _ => true

theorem timely_of_isControlPass {s : ParseState} (h : isControlPass s = true) : Timely s := by
  have hcontrol : ∀ header payload, InPayload s.client header payload → header.type ≠ .headers ∧
      header.type ≠ .continuation ∧ header.type ≠ .data ∧
      (header.type ≠ .settings ∨ header.length ≠ 0 ∨ 6 ≤ s.client.rbuf.length) := by
    intro header payload hin
    rw [isControlPass, hin.parserStage, hin.lastHeader] at h
    simpa [and_assoc, or_assoc] using h
  refine ⟨fun header payload hin hempty => ?_, fun header payload hin hrefused => ?_, fun header payload hin htype => ?_⟩
  · have hsix := (hcontrol header payload hin).2.2.2
    simpa [hempty.type, hempty.length] using hsix
  · have htype := hrefused.type
    simp [hcontrol header payload hin] at htype
  · simp [hcontrol header payload hin] at htype

example : isControlPass { client := firstRead [0, 0, 0, 4, 0, 0, 0, 0, 0] } = true := by decide +kernel

/-- A SETTINGS frame without values and a PING frame. -/
def settingsPing : Bytes := [0, 0, 0, 4, 0, 0, 0, 0, 0, 0, 0, 8, 6, 0, 0, 0, 0, 0, 1, 2, 3, 4, 5, 6, 7, 8]

theorem frames_served_settings_ping :
    Reachable Timely { client := firstRead settingsPing } ∧ FramesServed (firstRead settingsPing) := by
  have hreachable : Reachable Timely { client := firstRead settingsPing } :=
    reached_firstRead (timely_of_isControlPass rfl) (by decide) (by decide)
  have hloop : (runLoop parsePass 5 { client := firstRead settingsPing }).isSome := by decide +kernel
  have hcontrol : (visited parsePass 5 { client := firstRead settingsPing }).all isControlPass := by decide +kernel
  refine ⟨hreachable, frames_served hreachable fun s hvisits => ?_⟩
  exact timely_of_isControlPass (List.all_eq_true.1 hcontrol s (hvisits.mem_visited hloop))

/-- A SETTINGS frame without values is left waiting when nothing is behind it. -/
theorem settings_left_waiting :
    ∃ c, c = firstRead [0, 0, 0, 4, 0, 0, 0, 0, 0] ∧ Reached { client := c } ∧ ¬FramesServed c := by
  refine ⟨_, rfl, reached_firstRead trivial (by decide) (by decide), fun hserved => ?_⟩
  have hloop : (runLoop parsePass 2 { client := firstRead [0, 0, 0, 4, 0, 0, 0, 0, 0] }).map
      (fun r => (r.1.rbuf, r.1.parserStage, r.1.stopped, failed r.2)) =
        some ([], .payload { minReadSize := 6 }, false, false) := by decide +kernel
  obtain ⟨⟨c', ec⟩, hreturns, hresult⟩ := returns_of_map_runLoop hloop
  simp only [Prod.mk.injEq] at hresult
  obtain ⟨hrbuf, hstage, hstopped, hec⟩ := hresult
  refine hserved.returns c' ec hreturns hec hstopped ?_
  simp [Waiting, hstage]

/-! ## The bytes of a frame -/

/-- A HEADERS or DATA frame whose header is accepted takes its own bytes and no others, in every run whose passes over
the frame find the padding whole and the priority not cut. -/
theorem frame_bytes_exact {s t u : ParseState} {header : FrameHeader} {n : Nat} (hs : Reached s)
    (hstage : s.client.parserStage = .header) (hpass : parsePass s = .next t)
    (hheader : t.client.lastHeader = some header) (htype : header.type = .headers ∨ header.type = .data)
    (hrun : FrameRun Whole t n u) (hwhole : Whole u) : FrameExact header n u := by
  have hstart := inFrame_start hs.invariant hstage hpass hheader
  exact (hrun.inFrame hstart (htype.symm.imp_right .inl)).exact htype hwhole

/-- A new client with a request to send. -/
def requested : Client := { idleStreams := [{ method := .get, path := [47] }] }

/-- The request is sent, and the first bytes come from the server. -/
def responseRead (chunk : Bytes) : ParseState where
  client := requested.sendOneStreamRequest.1.receive chunk

theorem reached_responseRead {chunk : Bytes} (hne : chunk ≠ []) (hlen : chunk.length ≤ readBuffSize) :
    Reached (responseRead chunk) := by
  have hdone : parsePass { client := requested } = .done (requested, none) := rfl
  exact .call (.connect ⟨rfl, rfl, rfl, rfl, rfl⟩) trivial hdone rfl
    (.tail (.single (.rely (sendOneStreamRequest_rely (by decide)))) (.read chunk rfl hne hlen))

theorem frameRun_single {ok : ParseState → Prop} {t u : ParseState} {n : Nat} {payload : PayloadStage}
    (hstage : t.client.parserStage = .payload payload) (hok : ok t) (hpass : parsePass t = .next u)
    (hn : t.client.rbuf.length - u.client.rbuf.length = n) : FrameRun ok t n u := by
  subst hn
  have hrun := FrameRun.pass .start hstage hok hpass
  rwa [Nat.zero_add] at hrun

/-- A SETTINGS frame, and a HEADERS frame with two bytes of padding for the status 200. -/
def paddedResponse : Bytes :=
  [0, 0, 6, 4, 0, 0, 0, 0, 0, 0, 1, 0, 0, 16, 0] ++ [0, 0, 4, 1, 0x0c, 0, 0, 0, 1, 2, 0x88, 0, 0]

theorem paddedResponse_whole : Whole (stateAfter parsePass 3 (responseRead paddedResponse)) := by
  have hheader : (stateAfter parsePass 3 (responseRead paddedResponse)).client.lastHeader =
      some { length := 4, streamId := 1, type := .headers, flags := 0x0c } := by decide +kernel
  have hstage : (stateAfter parsePass 3 (responseRead paddedResponse)).client.parserStage =
      .payload { totalSize := 4 } := by decide +kernel
  have hrbuf : (stateAfter parsePass 3 (responseRead paddedResponse)).client.rbuf = [2, 0x88, 0, 0] := by decide +kernel
  refine ⟨fun header payload hin _ _ => ?_, fun header payload hin _ _ => ?_⟩
  · have hsame := hin.lastHeader
    have hsame' := hin.parserStage
    rw [hheader] at hsame
    rw [hstage] at hsame'
    cases hsame
    cases hsame'
    simp only [PaddingWraps, PaddingCut, hrbuf]
    refine ⟨?_, by simp⟩
    rintro ⟨-, -, padding, rest, hcons, -, hwraps⟩
    cases hcons
    revert hwraps
    decide
  · have hsame := hin.lastHeader
    rw [hheader] at hsame
    cases hsame
    rintro ⟨hpriority, -⟩
    revert hpriority
    decide

theorem frame_bytes_exact_padded :
    FrameRun Whole (stateAfter parsePass 3 (responseRead paddedResponse)) 4
        (stateAfter parsePass 4 (responseRead paddedResponse)) ∧
      FrameExact { length := 4, streamId := 1, type := .headers, flags := 0x0c } 4
        (stateAfter parsePass 4 (responseRead paddedResponse)) := by
  have hreached : Reached (stateAfter parsePass 2 (responseRead paddedResponse)) :=
    .pass (.pass (reached_responseRead (by decide) (by decide)) trivial
      (pass_stateAfter (n := 0) (by decide +kernel))) trivial (pass_stateAfter (n := 1) (by decide +kernel))
  have hstage : (stateAfter parsePass 3 (responseRead paddedResponse)).client.parserStage =
      .payload { totalSize := 4 } := by decide +kernel
  have hrun : FrameRun Whole (stateAfter parsePass 3 (responseRead paddedResponse)) 4
      (stateAfter parsePass 4 (responseRead paddedResponse)) :=
    frameRun_single hstage paddedResponse_whole (pass_stateAfter (by decide +kernel)) (by decide +kernel)
  have hend : (stateAfter parsePass 4 (responseRead paddedResponse)).client.parserStage = .header := by decide +kernel
  have hwhole : Whole (stateAfter parsePass 4 (responseRead paddedResponse)) := by
    refine ⟨fun header payload hin => ?_, fun header payload hin => ?_⟩
    · have hstage := hin.parserStage
      rw [hend] at hstage
      cases hstage
    · have hstage := hin.parserStage
      rw [hend] at hstage
      cases hstage
  exact ⟨hrun, frame_bytes_exact hreached (by decide +kernel) (pass_stateAfter (by decide +kernel)) (by decide +kernel)
    (.inl rfl) hrun hwhole⟩

/-- A SETTINGS frame, a HEADERS frame of seven bytes with the priority and six bytes of padding, and a PING frame. -/
def wrappedResponse : Bytes :=
  [0, 0, 6, 4, 0, 0, 0, 0, 0, 0, 1, 0, 0, 16, 0] ++ [0, 0, 7, 1, 0x2c, 0, 0, 0, 1, 6, 0, 0, 0, 0, 0, 0] ++
    [0, 0, 8, 6, 0, 0, 0, 0, 0, 1, 2, 3, 4, 5, 6, 7, 8]

/-- The data length wraps around, and the PING frame is read as a part of the HEADERS frame. -/
theorem frame_bytes_wrap :
    Reached (stateAfter parsePass 2 (responseRead wrappedResponse)) ∧
      (stateAfter parsePass 2 (responseRead wrappedResponse)).client.parserStage = .header ∧
      parsePass (stateAfter parsePass 2 (responseRead wrappedResponse)) =
        .next (stateAfter parsePass 3 (responseRead wrappedResponse)) ∧
      (stateAfter parsePass 3 (responseRead wrappedResponse)).client.lastHeader =
        some { length := 7, streamId := 1, type := .headers, flags := 0x2c } ∧
      FrameRun (fun _ => True) (stateAfter parsePass 3 (responseRead wrappedResponse)) 24
        (stateAfter parsePass 4 (responseRead wrappedResponse)) ∧
      ¬FrameExact { length := 7, streamId := 1, type := .headers, flags := 0x2c } 24
        (stateAfter parsePass 4 (responseRead wrappedResponse)) := by
  have hreached : Reached (stateAfter parsePass 2 (responseRead wrappedResponse)) :=
    .pass (.pass (reached_responseRead (by decide) (by decide)) trivial
      (pass_stateAfter (n := 0) (by decide +kernel))) trivial (pass_stateAfter (n := 1) (by decide +kernel))
  have hstage : (stateAfter parsePass 3 (responseRead wrappedResponse)).client.parserStage =
      .payload { totalSize := 7 } := by decide +kernel
  refine ⟨hreached, by decide +kernel, pass_stateAfter (by decide +kernel), by decide +kernel,
    frameRun_single hstage trivial (pass_stateAfter (by decide +kernel)) (by decide +kernel), fun hexact => ?_⟩
  exact absurd hexact.le (by decide)

end Rad.Http2
