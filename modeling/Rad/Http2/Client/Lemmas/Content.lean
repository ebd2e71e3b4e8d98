import Rad.Http2.Client.Lemmas.Phases

/-!
# The data of a response

What is counted of the DATA frames on a stream: behind its final response, the stream keeps the response, and
`received_data` is the sum of the lengths of the frames.
-/

namespace Rad.Http2

open Lib Client

/-! ## DATA frames on a stream -/

/-- The DATA frame whose header is accepted in a pass, on a stream that the server has not ended. -/
def Step.dataOn (id : Nat) (x : Step) : List FrameHeader :=
  x.headerReceived.toList.filter fun header => header.type = .data && header.streamId = id &&
    (x.before.client.findStream id).any (!·.isHalfClosedRemote)

/-- `received_data` behind the frames. -/
def countData (received : Nat) (headers : List FrameHeader) : Nat :=
  headers.foldl (fun received header => (received + header.length) % 2 ^ 64) received

theorem countData_append (received : Nat) (headers headers' : List FrameHeader) :
    countData received (headers ++ headers') = countData (countData received headers) headers' :=
  List.foldl_append

theorem countData_mod (received : Nat) (headers : List FrameHeader) :
    countData received headers % 2 ^ 64 = (received + (headers.map FrameHeader.length).sum) % 2 ^ 64 := by
  induction headers generalizing received with
  | nil => rfl
  | cons header headers ih =>
      rw [countData, List.foldl_cons, ← countData, ih, List.map_cons, List.sum_cons, Nat.mod_add_mod, Nat.add_assoc]

/-! ## One step -/

/-- A stream behind a step in which the given DATA frames are counted. -/
structure CountsData (headers : List FrameHeader) (new old : Stream) : Prop where
  id : new.id = old.id
  res : new.res = old.res
  receivedFinalRes : new.receivedFinalRes = old.receivedFinalRes
  receivedData : new.receivedData = countData old.receivedData headers

instance : Std.Refl (CountsData []) := ⟨fun _ => ⟨rfl, rfl, rfl, rfl⟩⟩

instance : IsTrans Stream (CountsData []) :=
  ⟨fun _ _ _ h h' => ⟨h.id.trans h'.id, h.res.trans h'.res, h.receivedFinalRes.trans h'.receivedFinalRes,
    h.receivedData.trans h'.receivedData⟩⟩

theorem staysOpen_countsData {s s' : Stream} (h : staysOpen s = some s') : CountsData [] s' s := by
  unfold staysOpen at h
  split at h
  · rw [← Option.some.inj h]
    exact refl _
  · split at h
    · cases h
    · rw [← Option.some.inj h]
      exact ⟨rfl, rfl, rfl, rfl⟩

theorem afterFlags_countsData (flags : UInt8) (it : Stream) : CountsData [] (afterFlags flags it) it := by
  unfold afterFlags
  split <;> exact ⟨rfl, rfl, rfl, rfl⟩

section Steps

variable {s t : System} {a : Action} {out : List SentFrame} {xs : List Step} {c c' : Client} {it it' : Stream} {id : Nat}

theorem Step.dataOn_of_none {x : Step} (h : x.headerReceived = none) (id : Nat) : x.dataOn id = [] := by
  rw [Step.dataOn, h]
  rfl

theorem Step.dataOn_cases (id : Nat) (x : Step) : x.dataOn id = [] ∨ ∃ header, x.dataOn id = [header] := by
  unfold Step.dataOn
  cases x.headerReceived with
  | none => exact .inl rfl
  | some header =>
      rw [Option.toList_some, List.filter_singleton, cond_eq_ite]
      split
      · exact .inr ⟨header, rfl⟩
      · exact .inl rfl

theorem Step.dataOn_of_header {x : Step} {header : FrameHeader} (h : x.headerReceived = some header)
    (hnot : header.type = .data → header.streamId = id → (x.before.client.findStream id).any (!·.isHalfClosedRemote) = false) :
    x.dataOn id = [] := by
  rw [Step.dataOn, h, Option.toList_some, List.filter_singleton]
  cases hcond : header.type = .data && header.streamId = id &&
      (x.before.client.findStream id).any (!·.isHalfClosedRemote) with
  | false => rfl
  | true =>
      simp only [Bool.and_eq_true, decide_eq_true_eq] at hcond
      rw [hnot hcond.1.1 hcond.1.2] at hcond
      exact absurd hcond.2 Bool.false_ne_true

theorem Step.dataOn_of_data {x : Step} {header : FrameHeader} (h : x.headerReceived = some header)
    (htype : header.type = .data) (hfind : x.before.client.findStream header.streamId = some it)
    (hremote : it.isHalfClosedRemote = false) : x.dataOn header.streamId = [header] := by
  rw [Step.dataOn, h, Option.toList_some, List.filter_singleton, hfind]
  simp [htype, hremote]

/-- What an accepted frame header counts. -/
theorem Client.HeaderCase.countsData {x : Step} {header : FrameHeader} {d : Client} (h : HeaderCase c header d)
    (hids : c.streamIds.Nodup) (hheader : x.headerReceived = some header)
    (hbefore : x.before.client.openStreams = c.openStreams) (hit' : it' ∈ d.openStreams) :
    ∃ it ∈ c.openStreams, CountsData (x.dataOn it'.id) it' it := by
  have hsame {id : Nat} : x.before.client.findStream id = c.findStream id := findStream_congr hbefore
  have hother (hmem : it' ∈ c.openStreams) (hne : it'.id ≠ header.streamId) :
      ∃ it ∈ c.openStreams, CountsData (x.dataOn it'.id) it' it := by
    rw [Step.dataOn_of_header hheader fun _ heq => absurd heq.symm hne]
    exact ⟨it', hmem, refl it'⟩
  cases h with
  | quiet htype hopen hclosed hblock =>
      rw [hopen] at hit'
      rw [Step.dataOn_of_header hheader fun hdata _ => absurd (.inl hdata) htype]
      exact ⟨it', hit', refl it'⟩
  | late it hfind hremote htype h hblock => exact hother (h.mem hids hit').2 (h.mem hids hit').1
  | headers it hfind hremote htype hphase h hblock =>
      have hid : it.id = header.streamId := findStream_id hfind
      rcases h.mem hid (by rw [hfind]; rfl) hids hit' with rfl | ⟨hne, hold⟩
      · rw [Step.dataOn_of_header hheader fun hdata _ => by rw [htype] at hdata; cases hdata]
        exact ⟨it, List.mem_of_find?_eq_some hfind, ⟨rfl, rfl, rfl, rfl⟩⟩
      · exact hother hold hne
  | data it hfind hremote htype hphase hfits h hblock =>
      have hid : it.id = header.streamId := findStream_id hfind
      rcases h.mem hid (by rw [hfind]; rfl) hids hit' with rfl | ⟨hne, hold⟩
      · have hcounted : x.dataOn it.id = [header] := by
          rw [hid]
          exact Step.dataOn_of_data hheader htype (hsame.trans hfind) hremote
        exact ⟨it, List.mem_of_find?_eq_some hfind, ⟨rfl, rfl, rfl, (congrArg (countData it.receivedData) hcounted).symm⟩⟩
      · exact hother hold hne
  | overlong it hfind hremote htype hphase hfits h hblock => exact hother (h.mem hids hit').2 (h.mem hids hit').1
  | other it hfind hremote hheaders hdata hphase h hblock =>
      have hid : it.id = header.streamId := findStream_id hfind
      rcases h.mem hid (by rw [hfind]; rfl) hids hit' with rfl | ⟨hne, hold⟩
      · rw [Step.dataOn_of_header hheader fun hdata' _ => absurd hdata' hdata]
        exact ⟨it, List.mem_of_find?_eq_some hfind, ⟨rfl, rfl, rfl, rfl⟩⟩
      · exact hother hold hne

/-- The header block behind the final response has trailers, which are not kept. -/
theorem Client.BlockCase.countsData {d : Client} {header : FrameHeader} (h : BlockCase d header it c')
    (htrailers : it.receivedFinalRes = true → it.receivedTrailers = true) (hids : d.streamIds.Nodup)
    (hfind : d.findStream it.id = some it) (hit' : it' ∈ c'.openStreams) :
    (it'.id = it.id ∧ (it.receivedFinalRes = true → CountsData [] it' it)) ∨ it'.id ≠ it.id ∧ it' ∈ d.openStreams := by
  have hopen : (d.findStream it.id).isSome := by rw [hfind]; rfl
  cases h with
  | part hend h hstage =>
      rcases h.mem rfl hopen hids hit' with ⟨rfl, -⟩ | hother
      · exact .inl ⟨rfl, fun _ => refl it'⟩
      · exact .inr hother
  | refused res hend h hstage => exact .inr (h.mem hids hit')
  | trailers hend _ h hstage =>
      have hcounts := afterFlags_countsData header.flags it
      rcases h.mem hcounts.id hopen hids hit' with ⟨rfl, -⟩ | hother
      · exact .inl ⟨hcounts.id, fun _ => hcounts⟩
      · exact .inr hother
  | informational res hend hnone hfinal hes hinfo h hstage =>
      rcases h.mem rfl hopen hids hit' with ⟨rfl, -⟩ | hother
      · exact .inl ⟨rfl, fun hres => absurd (hfinal.symm.trans hres) Bool.false_ne_true⟩
      · exact .inr hother
  | final res hend hnone hinfo h hstage =>
      have hcounts := afterFlags_countsData header.flags { it with receivedFinalRes := true, res }
      rcases h.mem hcounts.id hopen hids hit' with ⟨rfl, -⟩ | hother
      · exact .inl ⟨hcounts.id, fun hres => absurd (hnone.symm.trans (htrailers hres)) Bool.false_ne_true⟩
      · exact .inr hother

/-- A pass over a payload counts nothing, and a stream behind its final response keeps it. -/
theorem Client.PayloadCase.countsData {header : FrameHeader} {payload : PayloadStage} (h : PayloadCase c header payload c')
    (hids : c.streamIds.Nodup) (hphases : ∀ it ∈ c.openStreams, Phases xs c it) (hlast : c.lastHeader = some header)
    (hstage : c.parserStage = .payload payload) (hit' : it' ∈ c'.openStreams) :
    ∃ it ∈ c.openStreams, it'.id = it.id ∧ (it.receivedFinalRes = true → CountsData [] it' it) := by
  have hother (hmem : it' ∈ c.openStreams) :
      ∃ it ∈ c.openStreams, it'.id = it.id ∧ (it.receivedFinalRes = true → CountsData [] it' it) :=
    ⟨it', hmem, rfl, fun _ => refl it'⟩
  cases h with
  | quiet hparts hopen hclosed hblock => exact hother (hopen ▸ hit')
  | reset it ec htype hfind h hblock hstage' => exact hother (h.mem hids hit').2
  | data it r htype hfind hr h hblock hres hrbuf hstage' =>
      have hid : it.id = header.streamId := findStream_id hfind
      rcases h.mem hid (by rw [hfind]; rfl) hids hit' with rfl | ⟨-, hold⟩
      · exact ⟨it, List.mem_of_find?_eq_some hfind, rfl, fun _ => ⟨rfl, rfl, rfl, rfl⟩⟩
      · exact hother hold
  | dataEnd it r htype hfind hr h hblock hres hec hrbuf hstage' =>
      have hid : it.id = header.streamId := findStream_id hfind
      have hcounts := afterFlags_countsData (header.flags ||| endHeadersFlag) { it with resBuff := it.resBuff ++ r.data }
      rcases h.mem (hcounts.id.trans hid) (by rw [hfind]; rfl) hids hit' with ⟨rfl, -⟩ | ⟨-, hold⟩
      · exact ⟨it, List.mem_of_find?_eq_some hfind, hcounts.id, fun _ =>
          ⟨hcounts.id, hcounts.res, hcounts.receivedFinalRes, hcounts.receivedData⟩⟩
      · exact hother hold
  | block it stage htype hfind hopen hclosed hblock hstage' => exact hother (hopen ▸ hit')
  | blockEnd it rbuf stage htype hfind h hblock =>
      have hid : it.id = header.streamId := findStream_id hfind
      have hmem := List.mem_of_find?_eq_some hfind
      have hin : InBlock c it.id header := ⟨hlast, hid.symm, htype, .inl (by rw [hstage]; simp)⟩
      have htrailers := ((hphases it hmem).block header hin).2.2
      rcases h.countsData htrailers hids (by rw [hid]; exact hfind) hit' with hsame | ⟨-, hold⟩
      · exact ⟨it, hmem, hsame⟩
      · exact hother hold

/-- In a step a stream behind its final response keeps it, and DATA frames are counted with all their bytes. -/
theorem SystemRun.countsData (h : SystemRun xs s) (hstep : s.step a = some (t, out)) (hit' : it' ∈ t.client.openStreams)
    (hid : it'.id ≤ s.client.lastClientId) :
    ∃ it ∈ s.client.openStreams, it'.id = it.id ∧
      (it.receivedFinalRes = true → CountsData (Step.dataOn it.id ⟨s, a, out, t⟩) it' it) := by
  have hs := SystemRun.invariant h
  cases hs.seen hstep with
  | header c header hlen heq hheader ha ht hstage hout hheader' hframe hvalid =>
      have hopen : t.client.openStreams = c.openStreams := by
        rw [ht]
        rfl
      rw [hopen] at hit'
      obtain ⟨it, hit, hcounts⟩ := hheader.headerCase.countsData (x := ⟨s, a, out, t⟩) hs.parser.nodup hheader' rfl hit'
      rw [hcounts.id] at hcounts
      exact ⟨it, hit, hcounts.id, fun _ => hcounts⟩
  | payload header payload hlast hstage hacc hec ha ht hout hheader' hframe =>
      have hclient : t.client = (s.client.processFramePayload header payload).1 := by rw [ht]
      rw [hclient] at hit'
      obtain ⟨it, hit, hsame, hcounts⟩ := (processFramePayload_case hacc hec).countsData hs.parser.nodup (SystemRun.phases h)
        hlast hstage hit'
      simp only [Step.dataOn_of_none hheader']
      exact ⟨it, hit, hsame, hcounts⟩
  | done rbufExhausted ha ht hout hheader' hframe =>
      rw [ht] at hit'
      simp only [Step.dataOn_of_none hheader']
      exact ⟨it', hit', rfl, fun _ => refl it'⟩
  | perform ha hparsing henabled ht hout hheader' hframe =>
      simp only [Step.dataOn_of_none hheader']
      have hclient : t.client = (a.perform s.client).1 := by rw [ht]
      by_cases hopens : a = .sendRequest
      · obtain ⟨_, _, _, _, new, heq, -, hnew⟩ := sendOneStreamRequest_eq s.client
        have hstreams : t.client.openStreams = s.client.openStreams ++ new := by
          rw [hclient, hopens, Action.perform, heq]
        rw [hstreams] at hit'
        rcases List.mem_append.1 hit' with hit' | hit'
        · exact ⟨it', hit', rfl, fun _ => refl it'⟩
        · rcases hnew with rfl | ⟨r, hr, id, windowSize, rfl⟩
          · cases hit'
          · rw [List.mem_singleton.1 hit'] at hid
            exact absurd (hs.lt_of_opens hstep hstreams) (Nat.not_lt.2 hid)
      · have hrelated := Action.perform_related (c := s.client) (R := CountsData []) hs.parser.nodup hopens (fun _ _ => ⟨rfl, rfl, rfl, rfl⟩)
          (fun _ _ => ⟨rfl, rfl, rfl, rfl⟩) fun _ _ => staysOpen_countsData
        rw [← hclient] at hrelated
        obtain ⟨it, hit, hcounts⟩ := exists_of_sublistForall₂ hrelated hit'
        exact ⟨it, hit, hcounts.id, fun _ => hcounts⟩

end Steps

/-! ## Runs -/

section Runs

variable {t u : System} {xs ys : List Step} {r it : Stream}

theorem SystemRun.countsData_run (hrun : SystemRun xs t) (hr : r ∈ t.client.openStreams)
    (hfinal : r.receivedFinalRes = true) (hys : Run System.step t ys u) :
    ∀ it ∈ u.client.openStreams, it.id = r.id → CountsData (ys.flatMap (Step.dataOn r.id)) it r := by
  have hbound := (SystemRun.invariant hrun).parser.ids r.id (List.mem_map_of_mem hr)
  induction hys with
  | start =>
      intro it hit hid
      rw [eq_of_ids (SystemRun.invariant hrun).parser.nodup hit hr hid]
      exact ⟨rfl, rfl, rfl, rfl⟩
  | next hys hstep ih =>
      rename_i ys s v a out
      have hreached := hrun.append hys
      intro it hit hid
      have hlast : t.client.lastClientId ≤ s.client.lastClientId := by
        refine hys.invariant (I := fun s => t.client.lastClientId ≤ s.client.lastClientId ∧ SystemInvariant s)
          ⟨Nat.le_refl _, SystemRun.invariant hrun⟩ (fun s a v out hs hstep => ?_) |>.1
        exact ⟨hs.1.trans (hs.2.idsGrow hstep).lastClientId, hs.2.of_step hstep⟩
      obtain ⟨old, hold, hsame, hcounts⟩ := SystemRun.countsData hreached hstep hit (hid ▸ hbound.trans hlast)
      have hkept := ih old hold (hsame.symm.trans hid)
      have hstepped := hcounts (hkept.receivedFinalRes.trans hfinal)
      rw [hsame.symm.trans hid] at hstepped
      refine ⟨hid, hstepped.res.trans hkept.res, hstepped.receivedFinalRes.trans hkept.receivedFinalRes, ?_⟩
      rw [hstepped.receivedData, hkept.receivedData, List.flatMap_append, countData_append, List.flatMap_singleton]

end Runs

end Rad.Http2
