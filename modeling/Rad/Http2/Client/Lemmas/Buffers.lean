import Rad.Http2.Client.Lemmas.Phases

/-!
# What is appended to the response buffers

Only a pass over a DATA frame changes the response buffer of an open stream, and it changes that of the frame's stream
alone. This holds of the passes that end with an error, too.
-/

namespace Rad.Http2

open Lib Client

/-! ## Buffers that are kept -/

/-- The streams behind a step, open or closed in it, have the response buffers that they had, but for those that the step
may touch. -/
def KeepsBuffers (touched : Nat → Prop) (c c' : Client) : Prop :=
  ∀ q ∈ c'.openStreams ++ c'.closedStreams.drop c.closedStreams.length,
    ∃ r ∈ c.openStreams, r.id = q.id ∧ (q.resBuff = r.resBuff ∨ touched r.id)

section

variable {touched : Nat → Prop} {c c' d : Client} {id : Nat} {it it' : Stream} {ec : Option Error} {header : FrameHeader}
  {payload : PayloadStage}

theorem keepsBuffers_of_eq (hopen : c'.openStreams = c.openStreams) (hclosed : c'.closedStreams = c.closedStreams) :
    KeepsBuffers touched c c' := by
  intro q hq
  rw [hopen, hclosed, List.drop_length, List.append_nil] at hq
  exact ⟨q, hq, rfl, .inl rfl⟩

theorem KeepsBuffers.of_same (h : KeepsBuffers touched d c') (hopen : d.openStreams = c.openStreams)
    (hclosed : d.closedStreams = c.closedStreams) : KeepsBuffers touched c c' := by
  unfold KeepsBuffers at h ⊢
  rwa [hopen, hclosed] at h

theorem Client.Leaves.keepsBuffers (h : Leaves c id it' c') (hfind : c.findStream id = some it) (hid : it'.id = it.id)
    (hids : c.streamIds.Nodup) (hbuff : it'.resBuff = it.resBuff ∨ touched id) : KeepsBuffers touched c c' := by
  intro q hq
  rw [h.closedStreams, List.drop_length, List.append_nil] at hq
  have hid' : it.id = id := findStream_id hfind
  rcases h.mem (hid.trans hid') (by rw [hfind]; rfl) hids hq with rfl | ⟨-, hold⟩
  · exact ⟨it, List.mem_of_find?_eq_some hfind, hid.symm, hid'.symm ▸ hbuff⟩
  · exact ⟨q, hold, rfl, .inl rfl⟩

theorem Client.Ends.keepsBuffers (h : Ends c id it' ec c') (hfind : c.findStream id = some it) (hid : it'.id = it.id)
    (hids : c.streamIds.Nodup) (hbuff : it'.resBuff = it.resBuff ∨ touched id) : KeepsBuffers touched c c' := by
  intro q hq
  rw [h.closedStreams, List.drop_left] at hq
  have hid' : it.id = id := findStream_id hfind
  rcases List.mem_append.1 hq with hq | hq
  · exact ⟨q, (h.mem hids hq).2, rfl, .inl rfl⟩
  · rw [List.mem_singleton.1 hq]
    exact ⟨it, List.mem_of_find?_eq_some hfind, hid.symm, hid'.symm ▸ hbuff⟩

theorem Client.Settles.keepsBuffers (h : Settles c id it' c') (hfind : c.findStream id = some it) (hid : it'.id = it.id)
    (hids : c.streamIds.Nodup) (hbuff : it'.resBuff = it.resBuff ∨ touched id) : KeepsBuffers touched c c' := by
  cases h with
  | leaves hstate h => exact h.keepsBuffers hfind hid hids hbuff
  | ends hstate h => exact h.keepsBuffers hfind hid hids hbuff

theorem afterFlags_id (flags : UInt8) (it : Stream) : (afterFlags flags it).id = it.id := by
  unfold afterFlags
  split <;> rfl

theorem afterFlags_resBuff (flags : UInt8) (it : Stream) : (afterFlags flags it).resBuff = it.resBuff := by
  unfold afterFlags
  split <;> rfl

/-! ## Passes -/

theorem Client.HeaderCase.keepsBuffers (h : HeaderCase c header c') (hids : c.streamIds.Nodup) :
    KeepsBuffers touched c c' := by
  cases h with
  | quiet htype hopen hclosed hblock => exact keepsBuffers_of_eq hopen hclosed
  | late it hfind hremote htype h hblock => exact h.keepsBuffers hfind rfl hids (.inl rfl)
  | headers it hfind hremote htype hphase h hblock => exact h.keepsBuffers hfind rfl hids (.inl rfl)
  | data it hfind hremote htype hphase hfits h hblock => exact h.keepsBuffers hfind rfl hids (.inl rfl)
  | overlong it hfind hremote htype hphase hfits h hblock =>
      exact h.keepsBuffers hfind rfl hids (.inl rfl)
  | other it hfind hremote hheaders hdata hphase h hblock =>
      exact h.keepsBuffers hfind rfl hids (.inl rfl)

theorem Client.BlockCase.keepsBuffers (h : BlockCase c header it c') (hfind : c.findStream it.id = some it)
    (hids : c.streamIds.Nodup) : KeepsBuffers touched c c' := by
  cases h with
  | part hend h hstage => exact h.keepsBuffers hfind rfl hids (.inl rfl)
  | refused res hend h hstage => exact h.keepsBuffers hfind rfl hids (.inl rfl)
  | trailers hend htrailers h hstage =>
      exact h.keepsBuffers hfind (afterFlags_id _ _) hids (.inl (afterFlags_resBuff _ _))
  | informational res hend htrailers hfinal hes hinfo h hstage => exact h.keepsBuffers hfind rfl hids (.inl rfl)
  | final res hend htrailers hinfo h hstage =>
      exact h.keepsBuffers hfind (afterFlags_id _ _) hids (.inl (afterFlags_resBuff _ _))

theorem Client.PayloadCase.keepsBuffers (h : PayloadCase c header payload c') (hids : c.streamIds.Nodup) :
    KeepsBuffers (fun id => header.type = .data ∧ id = header.streamId) c c' := by
  cases h with
  | quiet hparts hopen hclosed hblock => exact keepsBuffers_of_eq hopen hclosed
  | reset it ec htype hfind h hblock hstage => exact h.keepsBuffers hfind rfl hids (.inl rfl)
  | data it r htype hfind hr h hblock hres hrbuf hstage =>
      exact h.keepsBuffers hfind rfl hids (.inr ⟨htype, rfl⟩)
  | dataEnd it r htype hfind hr h hblock hres hec hrbuf hstage =>
      exact h.keepsBuffers hfind (afterFlags_id _ _) hids (.inr ⟨htype, rfl⟩)
  | block it stage htype hfind hopen hclosed hblock hstage => exact keepsBuffers_of_eq hopen hclosed
  | blockEnd it rbuf stage htype hfind h hblock =>
      have hfound : c.findStream it.id = some it := (congrArg c.findStream (findStream_id hfind)).trans hfind
      exact (h.keepsBuffers hfound hids).of_same rfl rfl

/-! ## Passes that end with an error -/

theorem finishHeadersFrame_keepsBuffers (hfind : c.findStream it.id = some it) (hids : c.streamIds.Nodup) :
    KeepsBuffers touched c (c.finishHeadersFrame header it).1 := by
  by_cases hec : failed (c.finishHeadersFrame header it).2 = false
  · exact (finishHeadersFrame_block hfind hec).keepsBuffers hfind hids
  · have hhandled := handleHeadersBlock_handled hfind header.flags
    unfold finishHeadersFrame at hec ⊢
    dsimp only at hec ⊢
    split at hec
    · rename_i hflag
      rw [if_pos hflag]
      rcases hblock : c.handleHeadersBlock header.flags it with ⟨d, res, ec⟩
      rw [hblock] at hec hhandled
      cases hhandled with
      | failed _ res h => exact h.keepsBuffers hfind rfl hids (.inl rfl)
      | _ => exact absurd rfl hec
    · exact absurd rfl hec

theorem processFramePayload_keepsBuffers (hacc : Accepted c.lastClientId header payload) (hids : c.streamIds.Nodup) :
    KeepsBuffers (fun id => header.type = .data ∧ id = header.streamId) c (c.processFramePayload header payload).1 := by
  by_cases hec : failed (c.processFramePayload header payload).2 = false
  · exact (processFramePayload_case hacc hec).keepsBuffers hids
  · have hkind := hacc.kind
    unfold processFramePayload at hec ⊢
    unfold Kind at hkind
    cases htype : header.type with
    | data =>
        simp only [htype] at hec hkind ⊢
        cases hfind : c.findStream header.streamId with
        | none => simp [processDataFramePayload, hfind, failed] at hec
        | some it =>
            rw [processDataFramePayload_eq hfind hkind.2] at hec ⊢
            dsimp only at hec ⊢
            split at hec
            · rename_i hstops
              rw [if_pos hstops]
              have hleaves := modifyStream_leaves hfind fun s =>
                { s with resBuff := s.resBuff ++ (readFrame header.flags c.rbuf payload).data }
              have hleaves := hleaves.congr (d := (c.modifyStream header.streamId fun s =>
                { s with resBuff := s.resBuff ++ (readFrame header.flags c.rbuf payload).data }).reads
                  (readFrame header.flags c.rbuf payload)) rfl rfl
              exact hleaves.keepsBuffers hfind rfl hids (.inr ⟨trivial, rfl⟩)
            · exact absurd rfl hec
    | headers =>
        simp only [htype] at hec ⊢
        cases hfind : c.findStream header.streamId with
        | none => simp [processHeadersFramePayload, hfind, failed] at hec
        | some it =>
            have hfound : c.findStream it.id = some it := (congrArg c.findStream (findStream_id hfind)).trans hfind
            rw [processHeadersFramePayload_eq hfind]
            dsimp only
            split
            · exact keepsBuffers_of_eq rfl rfl
            · refine KeepsBuffers.of_same (finishHeadersFrame_keepsBuffers ?_ ?_) ?_ ?_
              · exact hfound
              · exact hids
              · rfl
              · rfl
    | continuation =>
        simp only [htype] at hec ⊢
        cases hfind : c.findStream header.streamId with
        | none => simp [processContinuationFramePayload, hfind, failed] at hec
        | some it =>
            have hfound : c.findStream it.id = some it := (congrArg c.findStream (findStream_id hfind)).trans hfind
            simp only [processContinuationFramePayload, hfind]
            split
            · refine KeepsBuffers.of_same (finishHeadersFrame_keepsBuffers ?_ ?_) ?_ ?_
              · exact hfound
              · exact hids
              · rfl
              · rfl
            · exact keepsBuffers_of_eq rfl rfl
    | settings =>
        have hkeeps := (processSettingsFramePayload_step c header payload).settingsKeeps
        exact keepsBuffers_of_eq hkeeps.openStreams hkeeps.closedStreams
    | goaway =>
        dsimp only
        unfold processGoawayFramePayload
        split <;> exact keepsBuffers_of_eq rfl rfl
    | windowUpdate =>
        simp only [htype, processWindowUpdateFramePayload] at hec ⊢
        split at hec
        · exact absurd rfl hec
        · rename_i hlen
          rw [if_neg hlen]
          split at hec
          · rename_i hzero
            rw [if_pos hzero]
            split at hec
            · exact absurd rfl hec
            · rename_i hid
              rw [if_neg hid]
              exact keepsBuffers_of_eq rfl rfl
          · exact absurd rfl hec
    | pushPromise => simp only [htype] at hkind
    | unknown value => simp only [htype] at hkind
    | _ =>
        rw [htype] at hec
        exact absurd rfl hec

theorem validateFrameHeader_keepsBuffers (hids : c.streamIds.Nodup) (header : FrameHeader) :
    KeepsBuffers touched c (c.validateFrameHeader header).1 := by
  cases hec : (c.validateFrameHeader header).2 with
  | none => exact (validateFrameHeader_step hec).headerCase.keepsBuffers hids
  | some ec =>
      unfold validateFrameHeader at hec ⊢
      split at hec
      · rename_i hvalid
        rw [if_pos hvalid]
        exact keepsBuffers_of_eq rfl rfl
      · rename_i hvalid
        rw [if_neg hvalid]
        split at hec
        · cases hec
        · rename_i hzero
          rw [if_neg hzero]
          cases hfind : c.findStream header.streamId with
          | none =>
              dsimp only
              split <;> exact keepsBuffers_of_eq rfl rfl
          | some it =>
              have hnoted : KeepsBuffers touched c _ := (noteHeader_leaves hfind).keepsBuffers hfind rfl hids (.inl rfl)
              simp only [hfind] at hec ⊢
              split at hec
              · split at hec <;> cases hec
              · rename_i hremote
                rw [if_neg hremote]
                unfold validateOpenStream at hec ⊢
                dsimp only at hec ⊢
                split at hec
                · rename_i h
                  rw [if_pos h]
                  exact keepsBuffers_of_eq rfl rfl
                · rename_i h
                  rw [if_neg h]
                  split at hec
                  · rename_i h
                    rw [if_pos h]
                    exact keepsBuffers_of_eq rfl rfl
                  · rename_i h
                    rw [if_neg h]
                    split at hec
                    · rename_i h
                      rw [if_pos h]
                      exact keepsBuffers_of_eq rfl rfl
                    · rename_i h
                      rw [if_neg h]
                      split at hec
                      · rename_i h
                        rw [if_pos h]
                        exact hnoted
                      · split at hec
                        · cases hec
                        · split at hec <;> cases hec

theorem parseHeader_keepsBuffers (hids : c.streamIds.Nodup) : KeepsBuffers touched c (clientBehind c.parseHeader) := by
  unfold parseHeader
  split
  · exact keepsBuffers_of_eq rfl rfl
  · have hkeeps : KeepsBuffers touched _ (validateFrameHeader { c with rbuf := c.rbuf.drop FrameHeader.neededWriteSize }
        (.ofBuffer (c.rbuf.take FrameHeader.neededWriteSize))).1 :=
      validateFrameHeader_keepsBuffers (c := { c with rbuf := c.rbuf.drop FrameHeader.neededWriteSize }) hids
        (.ofBuffer (c.rbuf.take FrameHeader.neededWriteSize))
    dsimp only
    split
    · rename_i hvalidate
      rw [hvalidate] at hkeeps
      exact hkeeps.of_same rfl rfl
    · rename_i hvalidate
      rw [hvalidate] at hkeeps
      exact hkeeps.of_same rfl rfl

theorem parsePayload_keepsBuffers (hacc : Accepted c.lastClientId header payload) (hids : c.streamIds.Nodup) :
    KeepsBuffers (fun id => header.type = .data ∧ id = header.streamId) c
      (clientBehind (c.parsePayload header payload)) := by
  unfold parsePayload
  split
  · exact keepsBuffers_of_eq rfl rfl
  · have hkeeps := processFramePayload_keepsBuffers hacc hids
    rcases hprocess : c.processFramePayload header payload with ⟨d, ec⟩
    rw [hprocess] at hkeeps
    dsimp only
    split <;> exact hkeeps

end

/-! ## Steps -/

section

variable {s t : System} {a : Action} {out : List SentFrame} {x : Step} {id : Nat}

theorem SystemInvariant.attempt_keepsBuffers (h : SystemInvariant s) :
    KeepsBuffers (InData s.client) s.client s.attempt.after.client := by
  have hids : s.client.streamIds.Nodup := h.parser.nodup
  show KeepsBuffers (InData s.client) s.client (clientBehind (parsePass s.parseState))
  unfold parsePass
  dsimp only
  split
  · exact keepsBuffers_of_eq rfl rfl
  · split
    · exact parseHeader_keepsBuffers hids
    · rename_i payload hstage
      obtain ⟨header, hlast, hacc⟩ := h.parser.stage payload hstage
      have hkeeps := parsePayload_keepsBuffers hacc hids
      rw [hlast]
      intro q hq
      obtain ⟨r, hr, hid, hbuff⟩ := hkeeps q hq
      refine ⟨r, hr, hid, hbuff.imp_right fun htouched => ⟨⟨header, hlast, htouched.2.symm, htouched.1⟩, ?_⟩⟩
      have hstage : s.client.parserStage = .payload payload := hstage
      simp [hstage]

theorem getsClosed_eq {r r' : Stream} (h : getsClosed r = some r') : r'.id = r.id ∧ r'.resBuff = r.resBuff := by
  unfold getsClosed at h
  split at h
  · cases h
  · split at h
    · rw [← Option.some.inj h]
      exact ⟨rfl, rfl⟩
    · cases h

/-- Between the calls of `parse_frames` nothing is appended. -/
theorem Action.perform_keepsBuffers {c : Client} (hids : c.streamIds.Nodup) {a : Action} (hopens : a ≠ .sendRequest) :
    KeepsBuffers (fun _ => False) c (a.perform c).1 := by
  have hphase := Action.perform_phase hids hopens
  intro q hq
  rcases List.mem_append.1 hq with hq | hq
  · obtain ⟨r, hr, hsame⟩ := exists_of_sublistForall₂ hphase hq
    exact ⟨r, hr, hsame.id.symm, .inl hsame.resBuff⟩
  · by_cases hfinish : a = .finishBodies
    · subst hfinish
      rw [Action.perform, (finishBodies_eq hids).2, List.drop_left] at hq
      obtain ⟨r, hr, hq⟩ := List.mem_filterMap.1 hq
      exact ⟨r, hr, (getsClosed_eq hq).1.symm, .inl (getsClosed_eq hq).2⟩
    · rw [Action.perform_closedStreams c hfinish, List.drop_length] at hq
      cases hq

/-- What is appended to the buffer of a stream by a step that touches only certain streams. -/
theorem KeepsBuffers.appended {touched : Nat → Prop} (h : KeepsBuffers touched x.before.client x.after.client)
    (hids : x.before.client.streamIds.Nodup) (hne : x.appended id ≠ []) :
    touched id ∧ ∃ it, x.before.client.findStream id = some it := by
  unfold Step.appended at hne
  split at hne
  · rename_i it it' hfind hafter
    have hid : it.id = id := findStream_id hfind
    have hid' : it'.id = id := by simpa using List.find?_some hafter
    obtain ⟨r, hr, hrid, hbuff⟩ := h it' (List.mem_of_find?_eq_some hafter)
    obtain rfl : r = it := eq_of_ids hids hr (List.mem_of_find?_eq_some hfind) (by rw [hrid, hid', hid])
    rcases hbuff with hbuff | htouched
    · rw [hbuff, List.drop_length] at hne
      exact absurd rfl hne
    · exact ⟨hid ▸ htouched, r, hfind⟩
  · exact absurd rfl hne

theorem SystemInvariant.appended_attempt (h : SystemInvariant s) (hne : s.attempt.appended id ≠ []) :
    InData s.client id ∧ ∃ it, s.client.findStream id = some it :=
  KeepsBuffers.appended (x := s.attempt) h.attempt_keepsBuffers h.parser.nodup hne

theorem SystemInvariant.appended_step (h : SystemInvariant s) (hstep : s.step a = some (t, out))
    (hne : Step.appended id ⟨s, a, out, t⟩ ≠ []) : InData s.client id ∧ ∃ it, s.client.findStream id = some it := by
  cases System.step_cases hstep with
  | next u ha hpass ht hout =>
      refine h.appended_attempt ?_
      have hclient : s.attempt.after.client = t.client := by
        rw [ht, System.attempt, hpass]
        rfl
      unfold Step.appended Step.streamAfter Step.closed at hne ⊢
      rw [hclient]
      exact hne
  | done c ha hdone ht hout =>
      obtain ⟨rbufExhausted, rfl⟩ := hdone.eq
      have hkeeps : KeepsBuffers (fun _ => False) s.client t.client := keepsBuffers_of_eq (by rw [ht]; rfl) (by rw [ht]; rfl)
      exact (KeepsBuffers.appended (x := ⟨s, a, out, t⟩) hkeeps h.parser.nodup hne).1.elim
  | perform ha hparsing henabled ht hout =>
      have hclient : t.client = (a.perform s.client).1 := by rw [ht]
      by_cases hopens : a = .sendRequest
      · obtain ⟨_, _, _, _, new, heq, -⟩ := sendOneStreamRequest_eq s.client
        have hstreams : t.client.openStreams = s.client.openStreams ++ new := by
          rw [hclient, hopens, Action.perform, heq]
        have hfalse : Step.appended id ⟨s, a, out, t⟩ = [] := by
          unfold Step.appended
          split
          · rename_i it it' hfind hafter
            rw [Step.streamAfter, hstreams, List.append_assoc, List.find?_append] at hafter
            unfold findStream at hfind
            rw [hfind] at hafter
            obtain rfl := Option.some.inj hafter
            exact List.drop_length
          · rfl
        exact absurd hfalse hne
      · have hkeeps := Action.perform_keepsBuffers (c := s.client) h.parser.nodup hopens
        rw [← hclient] at hkeeps
        exact (KeepsBuffers.appended (x := ⟨s, a, out, t⟩) hkeeps h.parser.nodup hne).1.elim

end

end Rad.Http2
