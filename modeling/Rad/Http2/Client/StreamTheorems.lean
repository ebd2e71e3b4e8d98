import Rad.Http2.Client.Lemmas.Content

/-!
# Theorems: streams

The identifiers that streams are opened with, and the length of a response that its header fields give.
-/

namespace Rad.Http2

open Lib Client

/-! ## Identifiers -/

/-- What `make_new_stream_id` returns in a step: `send_one_stream_request` calls it for the first request that waits. -/
def Step.newStreamId (x : Step) : List Nat :=
  if x.action = .sendRequest ∧ x.before.client.idleStreams ≠ [] then [x.before.client.makeNewStreamId.1] else []

/-- No identifier is given twice: they are odd, they fit in 31 bits and they increase, and behind a zero there are zeros
only. -/
structure NeverReused (ids : List Nat) : Prop where
  odd : ∀ id ∈ ids, id ≠ 0 → id % 2 = 1
  le : ∀ id ∈ ids, id ≠ 0 → id ≤ 2 ^ 31 - 1
  increasing : ids.Pairwise fun id id' => id ≠ 0 → id' ≠ 0 → id < id'
  exhausted : ids.Pairwise fun id id' => id = 0 → id' = 0

/-- The identifiers that a client has given, and the last of them, up to the call that finds none. -/
structure IdsGiven (ids : List Nat) (c : Client) : Prop where
  neverReused : NeverReused ids
  left : c.toSendGoawayEc = none → 0 ∉ ids ∧ (∀ id ∈ ids, id ≤ c.lastClientId) ∧ c.lastClientId ≤ maxStreamId ∧
    (c.lastClientId ≠ 0 → c.lastClientId % 2 = 1)

theorem IdsGiven.of_keeps {ids : List Nat} {c c' : Client} (h : IdsGiven ids c) (hkeeps : KeepsIds c c') :
    IdsGiven ids c' := by
  refine ⟨h.neverReused, fun hnone => ?_⟩
  rw [hkeeps.lastClientId]
  refine h.left (Option.eq_none_iff_forall_ne_some.2 fun ec hec => ?_)
  have hsome := hkeeps.goaway (by rw [hec]; rfl)
  rw [hnone] at hsome
  cases hsome

/-- An identifier that is given is new. -/
theorem NeverReused.append {ids : List Nat} {id : Nat} (h : NeverReused ids) (hnone : 0 ∉ ids)
    (hnew : id ≠ 0 → id % 2 = 1 ∧ id ≤ 2 ^ 31 - 1 ∧ ∀ old ∈ ids, old < id) : NeverReused (ids ++ [id]) := by
  have hmem {P : Nat → Prop} (hold : ∀ i ∈ ids, i ≠ 0 → P i) (hid : id ≠ 0 → P id) : ∀ i ∈ ids ++ [id], i ≠ 0 → P i := by
    intro i hi hne
    rcases List.mem_append.1 hi with hi | hi
    · exact hold i hi hne
    · obtain rfl := List.mem_singleton.1 hi
      exact hid hne
  refine ⟨hmem h.odd fun hne => (hnew hne).1, hmem h.le fun hne => (hnew hne).2.1, ?_, ?_⟩
  · refine List.pairwise_append.2 ⟨h.increasing, List.pairwise_singleton _ _, fun old hold new hnew' => ?_⟩
    obtain rfl := List.mem_singleton.1 hnew'
    exact fun _ hne => (hnew hne).2.2 old hold
  · refine List.pairwise_append.2 ⟨h.exhausted, List.pairwise_singleton _ _, fun old hold _ _ hzero => ?_⟩
    exact absurd (hzero ▸ hold) hnone

theorem IdsGiven.call {ids : List Nat} {c : Client} (h : IdsGiven ids c) (hnone : c.toSendGoawayEc = none) :
    IdsGiven (ids ++ [c.makeNewStreamId.1]) c.makeNewStreamId.2 := by
  obtain ⟨hzero, hle, hmax, hodd⟩ := h.left hnone
  rcases makeNewStreamId_left hmax with ⟨hgoaway, hid⟩ | ⟨hid, hmax', hlast⟩
  · refine ⟨h.neverReused.append hzero fun hne => absurd hid hne, fun hnone' => ?_⟩
    rw [hnone'] at hgoaway
    cases hgoaway
  · -- the identifier is odd and above the ones before
    have hnew : c.makeNewStreamId.1 % 2 = 1 ∧ c.lastClientId < c.makeNewStreamId.1 := by
      rw [hid]
      split <;> omega
    refine ⟨h.neverReused.append hzero fun _ => ⟨hnew.1, hmax', fun old hold => (hle old hold).trans_lt hnew.2⟩,
      fun _ => ?_⟩
    rw [hlast]
    refine ⟨fun hmem => ?_, fun id hmem => ?_, hmax', fun _ => hnew.1⟩
    · rcases List.mem_append.1 hmem with hold | heq
      · exact hzero hold
      · have := List.mem_singleton.1 heq
        omega
    · rcases List.mem_append.1 hmem with hold | heq
      · exact (hle id hold).trans hnew.2.le
      · exact (List.mem_singleton.1 heq).le

theorem SystemRun.idsGiven {xs : List Step} {s : System} (h : SystemRun xs s) :
    IdsGiven (xs.flatMap Step.newStreamId) s.client := by
  induction h with
  | start => exact ⟨⟨by simp, by simp, .nil, .nil⟩, fun _ => ⟨by simp, by simp, by decide, by simp⟩⟩
  | next hrun hstep ih =>
      rename_i xs s t a out
      rw [List.flatMap_append, List.flatMap_singleton]
      have hpass (ha : a = .pass) (hkeeps : KeepsIds s.client t.client) :
          IdsGiven (xs.flatMap Step.newStreamId ++ Step.newStreamId ⟨s, a, out, t⟩) t.client := by
        rw [Step.newStreamId, if_neg (by simp [ha]), List.append_nil]
        exact ih.of_keeps hkeeps
      cases System.step_cases hstep with
      | next u ha hnext ht hout => exact hpass ha (ht ▸ (parsePass_next hnext).2.keeps.keepsIds)
      | done c ha hdone ht hout =>
          obtain ⟨rbufExhausted, rfl⟩ := hdone.eq
          exact hpass ha (ht ▸ ⟨rfl, id⟩)
      | perform ha hparsing henabled ht hout =>
          subst ht
          rw [Step.newStreamId]
          split
          · rename_i hcall
            dsimp only at hcall
            obtain ⟨rfl, hidle⟩ := hcall
            exact (ih.call (Action.enabled_sendRequest henabled)).of_keeps (sendOneStreamRequest_keepsIds hidle)
          · rename_i hcall
            rw [List.append_nil]
            exact ih.of_keeps (Action.perform_keepsIds _ fun ha => by_contra fun hidle => hcall ⟨ha, hidle⟩)

/-- In every run of the client, `make_new_stream_id` never gives an identifier again. -/
theorem stream_ids_never_reused {xs : List Step} {s : System} (h : SystemRun xs s) :
    NeverReused (xs.flatMap Step.newStreamId) := h.idsGiven.neverReused

theorem stream_ids_never_reused_two : ∃ xs s, SystemRun xs s ∧ xs.flatMap Step.newStreamId = [1, 3] ∧
    NeverReused (xs.flatMap Step.newStreamId) := by
  have h : ((execute System.step {}
      [.connect, .read [0, 0, 6, 4, 0, 0, 0, 0, 0, 0, 1, 0, 0, 16, 0], .pass, .pass, .pass, .flush,
        .request { method := .get, path := ascii "/" }, .request { method := .get, path := ascii "/" }, .sendRequest,
        .flush, .sendRequest]).map fun r => decide (r.1.flatMap Step.newStreamId = [1, 3])) = some true := by
    decide +kernel
  obtain ⟨xs, s, hrun, hids⟩ := exists_run_of_map_execute h
  exact ⟨xs, s, hrun, of_decide_eq_true hids, stream_ids_never_reused hrun⟩

/-! ## Content-Length -/

/-- A DATA frame: the data, and the zero octets behind them when it is padded. -/
structure DataFrame where
  data : Bytes
  padding : Option UInt8

/-- The length in the header of the frame: that of the padding is an octet of its own. -/
def DataFrame.length (frame : DataFrame) : Nat := frame.data.length + frame.padding.elim 0 (·.toNat + 1)

/-- A stream behind a response with a Content-Length of `n`, whose body is to follow. -/
structure AwaitsBody (t : System) (r : Stream) (n : Nat) : Prop where
  isOpen : r ∈ t.client.openStreams
  responded : r.receivedFinalRes = true
  contentLength : r.getContentLength = some n

/-- `validate_frame_header` closes the stream, which the server has not ended. -/
def Step.closedByHeader (id : Nat) (x : Step) : Bool :=
  x.headerReceived.isSome && (x.before.client.findStream id).any (!·.isHalfClosedRemote) &&
    (x.after.client.findStream id).isNone

section ContentLength

variable {xs ys : List Step} {s t u : System} {r it : Stream} {n : Nat}

/-- A frame header leaves a stream open, unless its DATA frame is too long or the server has ended the stream. -/
theorem Client.HeaderCase.findStream_isNone {c d : Client} {header : FrameHeader} (h : HeaderCase c header d)
    (hids : c.streamIds.Nodup) {id : Nat} (hfind : c.findStream id = some it) (hremote : it.isHalfClosedRemote = false) :
    (d.findStream id).isNone = true ↔
      header.type = .data ∧ header.streamId = id ∧ c.dataFits it header = false := by
  have hleaves {it' : Stream} (hfound : (c.findStream header.streamId).isSome) (h : Leaves c header.streamId it' d)
      (hid : it'.id = header.streamId) : (d.findStream id).isNone = false := by
    by_cases heq : id = header.streamId
    · rw [heq, h.findStream hid hfound]
      rfl
    · rw [findStream_congr h.openStreams, findStream_modifyStream_of_ne hid heq, hfind]
      rfl
  have hends {it' : Stream} {ec : Option Error} (h : Ends c header.streamId it' ec d) (hne : id ≠ header.streamId) :
      (d.findStream id).isNone = false := by
    rw [findStream_congr h.openStreams, findStream_abandon_of_ne hne, hfind]
    rfl
  cases h with
  | quiet htype hopen hclosed hblock =>
      rw [findStream_congr hopen, hfind]
      exact iff_of_false Bool.false_ne_true fun hdata => htype (.inl hdata.1)
  | late it' hfind' hremote' htype h hblock =>
      have hne : id ≠ header.streamId := by
        rintro rfl
        rw [Option.some.inj (hfind.symm.trans hfind'), hremote'] at hremote
        cases hremote
      rw [hends h hne]
      exact iff_of_false Bool.false_ne_true fun hdata => hne hdata.2.1.symm
  | headers it' hfind' hremote' htype hphase h hblock =>
      rw [hleaves (by rw [hfind']; rfl) h (findStream_id hfind' : it'.id = header.streamId)]
      exact iff_of_false Bool.false_ne_true fun hdata => by
        rw [htype] at hdata
        cases hdata.1
  | data it' hfind' hremote' htype hphase hfits h hblock =>
      rw [hleaves (by rw [hfind']; rfl) h (findStream_id hfind' : it'.id = header.streamId)]
      refine iff_of_false Bool.false_ne_true ?_
      rintro ⟨-, rfl, hover⟩
      rw [Option.some.inj (hfind.symm.trans hfind'), hfits] at hover
      cases hover
  | overlong it' hfind' hremote' htype hphase hfits h hblock =>
      by_cases heq : id = header.streamId
      · subst heq
        rw [findStream_congr h.openStreams, findStream_abandon hids, Option.some.inj (hfind.symm.trans hfind')]
        exact iff_of_true rfl ⟨htype, rfl, hfits⟩
      · rw [hends h heq]
        exact iff_of_false Bool.false_ne_true fun hdata => heq hdata.2.1.symm
  | other it' hfind' hremote' hheaders hdata hphase h hblock =>
      rw [hleaves (by rw [hfind']; rfl) h (findStream_id hfind' : it'.id = header.streamId)]
      exact iff_of_false Bool.false_ne_true fun hdata' => hdata hdata'.1

/-- The header of a frame closes a stream that the server has not ended just when its DATA frame is too long. -/
theorem SystemInvariant.closedByHeader_iff (h : SystemInvariant s) {a : Action} {out : List SentFrame}
    (hstep : s.step a = some (t, out)) {id : Nat} (hfind : s.client.findStream id = some it) :
    Step.closedByHeader id ⟨s, a, out, t⟩ = true ↔
      ∃ header ∈ Step.dataOn id ⟨s, a, out, t⟩, s.client.dataFits it header = false := by
  have hquiet (hheader : Step.headerReceived ⟨s, a, out, t⟩ = none) :
      Step.closedByHeader id ⟨s, a, out, t⟩ = true ↔
        ∃ header ∈ Step.dataOn id ⟨s, a, out, t⟩, s.client.dataFits it header = false := by
    rw [Step.closedByHeader, hheader, Step.dataOn_of_none hheader]
    simp
  cases h.seen hstep with
  | header c header hlen heq hheader ha ht hstage hout hheader' hframe hvalid =>
      have hopen : t.client.findStream id = c.findStream id := by
        rw [ht]
        rfl
      cases hremote : it.isHalfClosedRemote with
      | true => simp [Step.closedByHeader, Step.dataOn, hheader', hfind, hremote]
      | false =>
          have hcase := hheader.headerCase.findStream_isNone h.parser.nodup hfind hremote
          simp only [Step.closedByHeader, Step.dataOn, hheader', hfind, hremote, hopen, hcase, Option.isSome_some,
            Option.any_some, Bool.not_false, Bool.true_and, Bool.and_true, Option.toList_some, List.mem_filter,
            List.mem_singleton, Bool.and_eq_true, decide_eq_true_eq]
          constructor
          · rintro ⟨htype, hid, hover⟩
            exact ⟨header, ⟨rfl, htype, hid⟩, hover⟩
          · rintro ⟨_, ⟨rfl, htype, hid⟩, hover⟩
            exact ⟨htype, hid, hover⟩
  | payload header payload hlast hstage hacc hec ha ht hout hheader' hframe => exact hquiet hheader'
  | done rbufExhausted ha ht hout hheader' hframe => exact hquiet hheader'
  | perform ha hparsing henabled ht hout hheader' hframe => exact hquiet hheader'

/-- With a Content-Length of `n`, no DATA frame closes the stream if and only if the lengths of the frames, padding
included, always add up to `n` at most and to `max_body_size_` at most, with what was counted before the request was
restarted. The sum is an `uint64_t`. -/
theorem content_length_counts_frames (hrun : SystemRun xs t) (hr : AwaitsBody t r n) (hys : Run System.step t ys u) :
    (∀ x ∈ ys, x.closedByHeader r.id = false) ↔
      ∀ zs x ws, ys = zs ++ x :: ws → x.dataOn r.id ≠ [] →
        (r.receivedData + (((zs ++ [x]).flatMap (Step.dataOn r.id)).map FrameHeader.length).sum) % 2 ^ 64 ≤
          min n x.before.client.maxBodySize := by
  have hstepIff (zs ws : List Step) (x : Step) (heq : ys = zs ++ x :: ws) :
      x.closedByHeader r.id = false ↔ (x.dataOn r.id ≠ [] →
        (r.receivedData + (((zs ++ [x]).flatMap (Step.dataOn r.id)).map FrameHeader.length).sum) % 2 ^ 64 ≤
          min n x.before.client.maxBodySize) := by
    subst heq
    obtain ⟨hzs, hstep, -⟩ := hys.cut
    cases hfind : x.before.client.findStream r.id with
    | none =>
        have hnone : x.dataOn r.id = [] := by simp [Step.dataOn, hfind]
        simp [Step.closedByHeader, hfind, hnone]
    | some it =>
        have hcounts := SystemRun.countsData_run hrun hr.isOpen hr.responded hzs it (List.mem_of_find?_eq_some hfind)
          (findStream_id hfind)
        have hlength : it.getContentLength = some n := by
          rw [Stream.getContentLength, hcounts.res]
          exact hr.contentLength
        have hclosed : x.closedByHeader r.id = true ↔ ∃ header ∈ x.dataOn r.id, x.before.client.dataFits it header = false :=
          (SystemRun.invariant (hrun.append hzs)).closedByHeader_iff hstep hfind
        rw [Bool.eq_false_iff, ne_eq, hclosed, List.flatMap_append, List.flatMap_singleton]
        rcases Step.dataOn_cases r.id x with hnone | ⟨header, hone⟩
        · simp [hnone]
        · -- the sum is what is counted with the header of this frame
          have hafter : dataAfter it header = (r.receivedData +
              (((zs.flatMap (Step.dataOn r.id)) ++ [header]).map FrameHeader.length).sum) % 2 ^ 64 := by
            rw [dataAfter, hcounts.receivedData, ← Nat.mod_add_mod, countData_mod, Nat.mod_add_mod, List.map_append,
              List.sum_append, ← Nat.add_assoc]
            rfl
          rw [hone, ← hafter]
          simp [dataFits, hlength, and_comm]
  constructor
  · intro hclosed zs x ws heq
    exact (hstepIff zs ws x heq).1 (hclosed x (heq ▸ List.mem_append_right _ (List.mem_cons_self ..)))
  · intro hsum x hx
    obtain ⟨zs, ws, heq⟩ := List.append_of_mem hx
    exact (hstepIff zs ws x heq).2 (hsum zs x ws heq)

/-- A request is answered with a Content-Length of 1: up to the end of the header block. -/
def oneOctetActions : List Action :=
  [.connect, .read [0, 0, 6, 4, 0, 0, 0, 0, 0, 0, 1, 0, 0, 16, 0], .pass, .pass, .pass, .flush,
    .request { method := .get, path := ascii "/" }, .sendRequest,
    .read [0, 0, 5, 1, 4, 0, 0, 0, 1, 0x88, 0x0f, 0x0d, 1, 0x31], .pass, .pass, .pass]

theorem oneOctet_runs (chunk : Bytes) {f : List Step → Bool}
    (h : ((execute System.step {} oneOctetActions).bind fun p => (System.step p.2 (.read chunk)).bind fun q =>
      (execute System.step q.1 [.pass]).map fun w =>
        decide (∃ r ∈ p.2.client.openStreams, r.receivedFinalRes = true ∧ r.getContentLength = some 1 ∧
          r.id = 1) && f (⟨p.2, .read chunk, q.2, q.1⟩ :: w.1)) = some true) :
    ∃ xs t r ys u, SystemRun xs t ∧ AwaitsBody t r 1 ∧ r.id = 1 ∧ Run System.step t ys u ∧ f ys = true := by
  obtain ⟨xs, t, v, out, ys, u, hrun, hstep, hys, hseen⟩ := exists_runs_of_execute h
  rw [Bool.and_eq_true] at hseen
  obtain ⟨r, hr, hfinal, hlength, hid⟩ := of_decide_eq_true hseen.1
  exact ⟨xs, t, r, _, u, hrun, ⟨hr, hfinal, hlength⟩, hid, (Run.single hstep).append hys, hseen.2⟩

theorem content_length_counts_frames_unpadded : ∃ xs t r ys u, SystemRun xs t ∧ AwaitsBody t r 1 ∧
    Run System.step t ys u ∧ (ys.flatMap (Step.dataOn r.id)).map FrameHeader.length = [1] ∧
    ∀ zs x ws, ys = zs ++ x :: ws → x.dataOn r.id ≠ [] →
      (r.receivedData + (((zs ++ [x]).flatMap (Step.dataOn r.id)).map FrameHeader.length).sum) % 2 ^ 64 ≤
        min 1 x.before.client.maxBodySize := by
  obtain ⟨xs, t, r, ys, u, hrun, hr, hid, hys, hseen⟩ := oneOctet_runs [0, 0, 1, 0, 0, 0, 0, 0, 1, 65]
    (f := fun ys => decide ((ys.flatMap (Step.dataOn 1)).map FrameHeader.length = [1]) &&
      ys.all fun x => !x.closedByHeader 1) (by decide +kernel)
  simp only [Bool.and_eq_true, decide_eq_true_eq, List.all_eq_true, Bool.not_eq_true'] at hseen
  exact ⟨xs, t, r, ys, u, hrun, hr, hys, by rw [hid]; exact hseen.1,
    (content_length_counts_frames hrun hr hys).1 (by rw [hid]; exact hseen.2)⟩

/-- One octet of data with one octet of padding makes a frame of three, which closes a stream that awaits one octet. -/
theorem content_length_counts_padding :
    ¬∀ (xs ys : List Step) (t u : System) (r : Stream) (n : Nat) (frames : List DataFrame), SystemRun xs t →
      AwaitsBody t r n → Run System.step t ys u → (∀ x ∈ ys, n ≤ x.before.client.maxBodySize) →
      (ys.flatMap (Step.dataOn r.id)).map FrameHeader.length = frames.map DataFrame.length →
      (frames.map (·.data.length)).sum ≤ n → ∀ x ∈ ys, x.closedByHeader r.id = false := by
  intro h
  obtain ⟨xs, t, r, ys, u, hrun, hr, hid, hys, hseen⟩ := oneOctet_runs [0, 0, 3, 0, 8, 0, 0, 0, 1, 1, 65, 0]
    (f := fun ys => ys.all (fun x => decide (1 ≤ x.before.client.maxBodySize)) &&
      decide ((ys.flatMap (Step.dataOn 1)).map FrameHeader.length = [3]) && ys.any fun x => x.closedByHeader 1)
    (by decide +kernel)
  simp only [Bool.and_eq_true, decide_eq_true_eq, List.all_eq_true, List.any_eq_true] at hseen
  obtain ⟨⟨hmax, hlengths⟩, x, hx, hclosed⟩ := hseen
  have hopen := h xs ys t u r 1 [⟨[65], some 1⟩] hrun hr hys hmax (by rw [hid]; exact hlengths) (Nat.le_refl 1) x hx
  rw [hid, hclosed] at hopen
  cases hopen

end ContentLength

end Rad.Http2
