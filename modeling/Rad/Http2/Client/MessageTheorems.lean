import Rad.Http2.Client.Lemmas.Bodies
import Rad.Http2.Client.Lemmas.Buffers

/-!
# Theorems: requests and responses

What the server gets of the bodies of the requests, in every run of the system: requests that are opened and given up,
frames of the server and rounds of `collect_data_frames` in any order.
-/

namespace Rad.Http2

open Lib Client

/-! ## Bodies are sent once -/

/-- The stream `r` is open in `t`, and `ys` are the steps from there to `u`. As long as the stream is not closed its
frames are the body that it had, up to what is left of it; nothing is left after as many rounds as there are bytes in the
bodies up to its own. Frames fit the peer, are written as they are, and a round with something to send sends something. -/
structure BodySentOnce (t : System) (r : Stream) (ys : List Step) (u : System) : Prop where
  sent : ∀ r' ∈ u.client.openStreams, r'.id = r.id → BodySent r.body (ys.flatMap (Step.dataSent r.id)) r'.body
  complete : ∀ r' ∈ u.client.openStreams, r'.id = r.id → backlog r.id t.client.openStreams ≤ rounds ys → r'.body = []
  fits : ∀ x ∈ ys, ∀ frame ∈ x.dataSent r.id, frame.2.length ≤ x.before.client.peerMaxPayloadSize
  written : ∀ x ∈ ys, x.action = .sendBodies →
    (makeFramesBuffers x.before.client.collectDataFrames.2).flatten = x.output.flatMap SentFrame.buffer
  progress : ∀ x ∈ ys, x.action = .sendBodies → (∃ q ∈ x.before.client.openStreams, q.body ≠ []) → x.output ≠ []

/-- In every run whose requests have no body with a size that is taken for zero, bodies are sent once. -/
theorem bodies_sent_once {xs ys : List Step} {t u : System} {r : Stream} (hrun : SystemRun xs t)
    (hr : r ∈ t.client.openStreams) (hys : Run System.step t ys u)
    (hbodies : ∀ x ∈ xs ++ ys, x.action.keepsBody = true) : BodySentOnce t r ys u := by
  have hxs : ∀ x ∈ xs, x.action.keepsBody = true := fun x hx => hbodies x (List.mem_append_left _ hx)
  have hlater : ∀ x ∈ ys, x.action.keepsBody = true := fun x hx => hbodies x (List.mem_append_right _ hx)
  refine ⟨hrun.bodySent hr hys, fun r' hr' hid hrounds => ?_, fun x hx frame hframe => ?_, fun x hx ha => ?_,
    fun x hx ha hunfinished => ?_⟩
  · by_contra hne
    have hle := hrun.backlog_le hxs hr hys hlater r' hr' hid hne
    have hpos := backlog_pos (SystemRun.invariant (hrun.append hys)).parser.nodup hr' hne
    rw [hid] at hpos
    exact absurd hpos (by simp only [System.parseState]; omega)
  · obtain ⟨zs, hzs, -, hstep⟩ := hys.of_mem hx
    obtain ⟨ha, hmem⟩ := SystemRun.sendBodies_of_dataSent (hrun.append hzs) hstep hframe
    rw [ha] at hstep
    exact (SystemRun.round (hrun.append hzs) hstep).2.1 frame hmem
  · obtain ⟨zs, hzs, -, hstep⟩ := hys.of_mem hx
    rw [ha] at hstep
    exact (SystemRun.round (hrun.append hzs) hstep).2.2
  · obtain ⟨zs, hzs, hsub, hstep⟩ := hys.of_mem hx
    obtain ⟨q, hq, hne⟩ := hunfinished
    have hreached := hrun.append hzs
    have hsendable := SystemRun.sendable hreached fun y hy => (List.mem_append.1 hy).elim (hxs y) fun hy =>
      hlater y (hsub hy)
    have hround := collectDataFrames_progress (maxChunkSize_pos hreached) (SystemRun.invariant hreached).parser.nodup hq
      (hsendable.opened q hq hne)
    rw [ha] at hstep
    rw [(SystemRun.round hreached hstep).1]
    simpa using hround.1

/-- The first frame of the server, and a request with a small body. -/
def smallBodyActions : List Action :=
  [.connect, .read [0, 0, 6, 4, 0, 0, 0, 0, 0, 0, 1, 0, 0, 16, 0], .pass, .pass, .pass, .flush,
    .request { method := .post, path := ascii "/", body := [1, 2, 3] }]

theorem bodies_sent_once_small : ∃ xs t r ys u, SystemRun xs t ∧ r ∈ t.client.openStreams ∧ Run System.step t ys u ∧
    BodySentOnce t r ys u ∧ ys.flatMap (Step.dataSent r.id) =
      [({ type := .data, streamId := 1, length := 3, flags := endStreamFlag }, [1, 2, 3])] := by
  have hexecute : ((execute System.step {} smallBodyActions).bind fun p => (System.step p.2 .sendRequest).bind fun q =>
      (execute System.step q.1 [.sendBodies]).map fun w =>
        decide ((∀ x ∈ p.1 ++ [⟨p.2, .sendRequest, q.2, q.1⟩] ++ w.1, x.action.keepsBody = true) ∧
          q.1.client.streamIds = [1] ∧ w.1.flatMap (Step.dataSent 1) =
            [({ type := .data, streamId := 1, length := 3, flags := endStreamFlag }, [1, 2, 3])])) = some true := by
    decide +kernel
  obtain ⟨xs, s, t, out, ys, u, hrun, hstep, hys, hseen⟩ := exists_runs_of_execute hexecute
  obtain ⟨hbodies, hids, hframes⟩ := of_decide_eq_true hseen
  have hmem : 1 ∈ t.client.streamIds := by rw [hids]; exact List.mem_singleton.2 rfl
  obtain ⟨r, hr, hid⟩ := List.mem_map.1 hmem
  refine ⟨_, t, r, ys, u, hrun.next hstep, hr, hys, bodies_sent_once (hrun.next hstep) hr hys hbodies, ?_⟩
  rw [hid]
  exact hframes

/-! ## A body of 4 GiB -/

/-- A client that is connected and idle. -/
structure Quiescent (s : System) : Prop where
  connected : s.connected = true
  parsing : s.parsing = none
  stopped : s.client.stopped = false
  lastHeader : s.client.lastHeader.isSome = true
  sendQueueEmpty : s.client.sendQueueEmpty = true
  lastClientId : s.client.lastClientId = 0
  openStreams : s.client.openStreams = []
  idleStreams : s.client.idleStreams = []
  peerMaxConcurrentStreams : 0 < s.client.peerMaxConcurrentStreams

theorem Quiescent.opens {s : System} (h : Quiescent s) {r : Stream} (hr : r.isRequest = true) :
    ∃ xs t windowSize, Run System.step s xs t ∧ t.connected = true ∧ t.parsing = none ∧ t.client.stopped = false ∧
      t.client.openStreams = [openedStream r 1 windowSize] := by
  have hrequest : Action.enabled s (.request r) = true := by
    simp [Action.enabled, h.lastHeader, h.stopped, hr]
  have hstep := System.step_of_enabled (by simp) h.parsing hrequest
  have hsend : Action.enabled
      { s with
        client := (Action.perform s.client (.request r)).1
        connected := s.connected || decide (Action.request r = .connect) }
      .sendRequest = true := by
    simp only [Action.enabled, Bool.and_eq_true]
    refine ⟨⟨⟨?_, ?_⟩, h.sendQueueEmpty⟩, ?_⟩
    · simp [h.connected]
    · simp [Action.perform, h.stopped]
    · simp [canOpenNewStreams, Action.perform, h.openStreams, h.idleStreams, h.peerMaxConcurrentStreams]
  have hstep' := System.step_of_enabled (by simp) (by exact h.parsing) hsend
  refine ⟨_, _, wrapInt32 s.client.selfStreamsInitialWindowSize, (Run.single hstep).next hstep', ?_, h.parsing, ?_, ?_⟩
  · simp [h.connected]
  · simp [Action.perform, sendOneStreamRequest, makeNewStreamId, h.lastClientId, h.idleStreams, h.stopped]
  · simp [Action.perform, sendOneStreamRequest, makeNewStreamId, h.lastClientId, h.idleStreams, h.openStreams]

theorem exists_quiescent : ∃ xs s, SystemRun xs s ∧ Quiescent s := by
  have hexecute : (execute System.step {} (smallBodyActions.take 6)).map (fun p =>
      decide (p.2.connected = true ∧ p.2.parsing = none ∧ p.2.client.stopped = false ∧
        p.2.client.lastHeader.isSome = true ∧ p.2.client.sendQueueEmpty = true ∧ p.2.client.lastClientId = 0 ∧
        p.2.client.openStreams = [] ∧ p.2.client.idleStreams = [] ∧ 0 < p.2.client.peerMaxConcurrentStreams)) =
      some true := by
    decide +kernel
  obtain ⟨xs, s, hrun, hseen⟩ := exists_run_of_map_execute hexecute
  obtain ⟨h₁, h₂, h₃, h₄, h₅, h₆, h₇, h₈, h₉⟩ := of_decide_eq_true hseen
  exact ⟨xs, s, hrun, h₁, h₂, h₃, h₄, h₅, h₆, h₇, h₈, h₉⟩

/-- The size of a body of 4 GiB is taken for zero: its stream is closed on the client's side at once, and the next round
sends nothing. -/
theorem four_gigabytes_not_sent : ∃ xs t r ys u, SystemRun xs t ∧ r ∈ t.client.openStreams ∧
    r.body = List.replicate (2 ^ 32) 0 ∧ Run System.step t ys u ∧ ¬BodySentOnce t r ys u := by
  obtain ⟨xs, s, hrun, hquiet⟩ := exists_quiescent
  obtain ⟨ys, t, windowSize, hys, hconnected, hparsing, hstopped, hopen⟩ :=
    hquiet.opens (r := { method := .post, path := ascii "/", body := List.replicate (2 ^ 32) 0 }) rfl
  have hbody : (openedStream { method := .post, path := ascii "/", body := List.replicate (2 ^ 32) 0 } 1 windowSize).body =
      List.replicate (2 ^ 32) 0 := openedStream_body _ _ _
  have hnone : (openedStream { method := .post, path := ascii "/", body := List.replicate (2 ^ 32) 0 } 1
      windowSize).hasBody = false := by
    have hsize : (List.replicate (2 ^ 32) (0 : UInt8)).length % 2 ^ 32 = 0 := by
      rw [List.length_replicate, Nat.mod_self]
    rw [Stream.hasBody, Stream.isHalfClosedLocal, openedStream_state, if_pos hsize]
    rfl
  generalize openedStream { method := .post, path := ascii "/", body := List.replicate (2 ^ 32) 0 } 1 windowSize = r at *
  have henabled : Action.enabled t .sendBodies = true := by simp [Action.enabled, hconnected, hstopped]
  have hstep := System.step_of_enabled (by simp) hparsing henabled
  have hr : r ∈ t.client.openStreams := by rw [hopen]; exact List.mem_singleton.2 rfl
  refine ⟨_, t, r, _, _, hrun.append hys, hr, hbody, Run.single hstep, fun hsent => ?_⟩
  refine hsent.progress _ (List.mem_singleton.2 rfl) rfl ⟨r, hr, ?_⟩ ?_
  · rw [hbody]
    exact List.cons_ne_nil _ _
  · have hempty := (collectDataFrames_emits t.client).nil_of_none (by simp [hopen, hnone])
    simp [Action.perform, hempty]

/-! ## The windows of the server -/

/-- SETTINGS_INITIAL_WINDOW_SIZE of the server: the last value that was received. -/
def initialWindow (xs : List Step) : Nat :=
  (((xs.flatMap Step.settingValuesReceived).filter (·.id = 4)).getLast?.map SettingValue.value).getD 65535

/-- The increments that were received for a stream, or for the connection. -/
def increments (id : Nat) (xs : List Step) : Nat :=
  (((xs.flatMap Step.windowUpdatesReceived).filter (·.1 = id)).map Prod.snd).sum

/-- The DATA frames of a run stay within the windows that the server has given. -/
structure WithinWindows (xs : List Step) : Prop where
  stream : ∀ id, dataSizes (· = id) (xs.flatMap Step.dataFramesSent) ≤ initialWindow xs + increments id xs
  connection : dataSizes (fun _ => true) (xs.flatMap Step.dataFramesSent) ≤ 65535 + increments 0 xs

/-- The bodies of the requests fit the windows that the server has given. -/
structure BodiesFit (xs : List Step) : Prop where
  stream : ∀ id, bodySizes (· = id) (xs.flatMap Step.opened) ≤ initialWindow xs + increments id xs
  connection : bodySizes (fun _ => true) (xs.flatMap Step.opened) ≤ 65535 + increments 0 xs

/-- The client does not keep to the windows of the server, but it sends no more than the bodies of its requests: on each
stream, and on all of them together. So DATA frames stay within the windows when the bodies do. -/
theorem data_within_bodies {xs : List Step} {s : System} (hrun : SystemRun xs s) :
    (∀ id, dataSizes (· = id) (xs.flatMap Step.dataFramesSent) ≤ bodySizes (· = id) (xs.flatMap Step.opened)) ∧
      dataSizes (fun _ => true) (xs.flatMap Step.dataFramesSent) ≤ bodySizes (fun _ => true) (xs.flatMap Step.opened) ∧
      (BodiesFit xs → WithinWindows xs) := by
  have hle : ∀ counted, dataSizes counted (xs.flatMap Step.dataFramesSent) ≤ bodySizes counted (xs.flatMap Step.opened) :=
    fun counted => (Nat.le_add_right _ _).trans (hrun.bodySizes counted)
  exact ⟨fun id => hle _, hle _, fun hfit => ⟨fun id => (hle _).trans (hfit.stream id), (hle _).trans hfit.connection⟩⟩

/-- The server allows the client no data, and a request with a body of one byte is sent. -/
def closedWindowActions : List Action :=
  [.connect, .read [0, 0, 6, 4, 0, 0, 0, 0, 0, 0, 4, 0, 0, 0, 0], .pass, .pass, .pass, .flush,
    .request { method := .post, path := ascii "/", body := [1] }, .sendRequest, .sendBodies]

theorem closedWindowActions_run : ∃ xs s, SystemRun xs s ∧ initialWindow xs = 0 ∧ increments 1 xs = 0 ∧
    dataSizes (· = 1) (xs.flatMap Step.dataFramesSent) = 1 ∧ bodySizes (· = 1) (xs.flatMap Step.opened) = 1 := by
  have hexecute : (execute System.step {} closedWindowActions).map (fun p =>
      (initialWindow p.1, increments 1 p.1, dataSizes (· = 1) (p.1.flatMap Step.dataFramesSent),
        bodySizes (· = 1) (p.1.flatMap Step.opened))) = some (0, 0, 1, 1) := by decide +kernel
  obtain ⟨xs, s, hrun, hseen⟩ := exists_run_of_map_execute hexecute
  simp only [Prod.mk.injEq] at hseen
  exact ⟨xs, s, hrun, hseen⟩

theorem data_within_bodies_one : ∃ xs s, SystemRun xs s ∧ bodySizes (· = 1) (xs.flatMap Step.opened) = 1 ∧
    dataSizes (· = 1) (xs.flatMap Step.dataFramesSent) ≤ bodySizes (· = 1) (xs.flatMap Step.opened) := by
  obtain ⟨xs, s, hrun, -, -, -, hbody⟩ := closedWindowActions_run
  exact ⟨xs, s, hrun, hbody, (data_within_bodies hrun).1 1⟩

theorem closed_window_exceeded : ∃ xs s, SystemRun xs s ∧ initialWindow xs = 0 ∧ ¬WithinWindows xs := by
  obtain ⟨xs, s, hrun, hwindow, hincrements, hdata, -⟩ := closedWindowActions_run
  refine ⟨xs, s, hrun, hwindow, fun hwithin => ?_⟩
  have hle := hwithin.stream 1
  rw [hwindow, hincrements, hdata] at hle
  omega

/-! ## Responses

The frames of a response come in their order: the final header block, the data, and the trailers. Whatever the server
sends, nothing of a response is taken out of its turn.
-/

variable {xs : List Step} {s : System}

/-! ## Phases -/

/-- The step comes in its turn behind the steps of `ys`, as far as the response on the stream is concerned. -/
structure InTurn (id : Nat) (ys : List Step) (x : Step) : Prop where
  data : x.appended id ≠ [] → (∃ y ∈ ys, y.finalAccepted id = true) ∧ ∀ y ∈ ys, y.endReceived id = false
  final : x.finalAccepted id = true → ∀ y ∈ ys, y.finalAccepted id = false
  trailers : x.trailersAccepted id = true →
    (∃ y ∈ ys, y.finalAccepted id = true) ∧ (∀ y ∈ ys, y.trailersAccepted id = false) ∧ x.endReceived id = true

/-- DATA octets are appended behind the one final response and in front of the end of the stream, and trailers are
accepted once, behind the final response and with END_STREAM. A pass that ends with an error appends nothing out of turn,
either. -/
theorem responses_in_turn (h : SystemRun xs s) (id : Nat) :
    (∀ ys x zs, xs = ys ++ x :: zs → InTurn id ys x) ∧
    (s.attempt.appended id ≠ [] → (∃ y ∈ xs, y.finalAccepted id = true) ∧ ∀ y ∈ xs, y.endReceived id = false) := by
  refine ⟨?_, fun hne => ?_⟩
  · rintro ys x zs rfl
    obtain ⟨hys, hstep, -⟩ := h.cut
    refine ⟨fun hne => ?_, SystemRun.final_in_turn hys rfl, fun htrailers => ?_⟩
    · obtain ⟨hin, it, hfind⟩ := (SystemRun.invariant hys).appended_step hstep hne
      exact SystemRun.data_in_turn hys hin hfind
    · obtain ⟨hfinal, hend, hend'⟩ := SystemRun.trailers_in_turn hys rfl htrailers
      refine ⟨hfinal, fun y hy => ?_, hend'⟩
      -- trailers end the stream, so there are none behind others
      by_contra hother
      simp only [Bool.not_eq_false] at hother
      obtain ⟨first, last, rfl⟩ := List.append_of_mem hy
      obtain ⟨hfirst, -, -⟩ := hys.cut
      have hyend := (SystemRun.trailers_in_turn hfirst rfl hother).2.2
      rw [hend y hy] at hyend
      cases hyend
  · obtain ⟨hin, it, hfind⟩ := (SystemRun.invariant h).appended_attempt hne
    exact h.data_in_turn hin hfind

/-- A request is answered with a final response, a byte of data and trailers: up to the pass that reads the byte. -/
def respondedActions : List Action :=
  [.connect, .read [0, 0, 6, 4, 0, 0, 0, 0, 0, 0, 1, 0, 0, 16, 0], .pass, .pass, .pass, .flush,
    .request { method := .get, path := ascii "/" }, .sendRequest,
    .read [0, 0, 1, 1, 4, 0, 0, 0, 1, 0x88, 0, 0, 1, 0, 0, 0, 0, 0, 1, 7, 0, 0, 1, 1, 5, 0, 0, 0, 1, 0x90],
    .pass, .pass, .pass]

theorem responses_in_turn_answered : ∃ (ys : List Step) (x : Step) (zs : List Step) (z : Step) (s : System),
    SystemRun (ys ++ x :: zs) s ∧ x.appended 1 = [7] ∧ z ∈ zs ∧ z.trailersAccepted 1 = true ∧
    (∃ y ∈ ys, y.finalAccepted 1 = true) ∧ ∀ y ∈ ys, y.endReceived 1 = false := by
  have hexecute : ((execute System.step {} respondedActions).bind fun p => (System.step p.2 .pass).bind fun q =>
      (execute System.step q.1 [.pass, .pass]).map fun w =>
        decide (Step.appended 1 ⟨p.2, .pass, q.2, q.1⟩ = [7] ∧ w.1.any (Step.trailersAccepted 1) = true)) =
        some true := by
    decide +kernel
  obtain ⟨ys, s, t, out, zs, u, hrun, hstep, hzs, hseen⟩ := exists_runs_of_execute hexecute
  obtain ⟨happended, htrailers⟩ := of_decide_eq_true hseen
  obtain ⟨z, hz, htrailers⟩ := List.any_eq_true.1 htrailers
  have hall := (hrun.next hstep).append hzs
  rw [List.append_assoc, List.singleton_append] at hall
  have hturn := (responses_in_turn hall 1).1 ys _ zs rfl
  exact ⟨ys, _, zs, z, u, hall, happended, hz, htrailers, hturn.data (by rw [happended]; simp)⟩

end Rad.Http2
