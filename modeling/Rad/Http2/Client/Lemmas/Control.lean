import Rad.Http2.Client.Lemmas.Payload

/-!
# The payloads of the other frames

What one pass of `parse_frames` does in the payload stage of a frame, for all the types.
-/

namespace Rad.Http2

open Lib

namespace Client

variable {c : Client} {header : FrameHeader} {payload : PayloadStage}

theorem passes_of_step {c' d : Client} {n : Nat} (hstep : PayloadStep c n d)
    (huntouched : Untouched { d with parserStage := .header } c') : PayloadPass c header c' ∧ Shrinks c c' :=
  ⟨⟨⟨n, (hstep.setStage .header).untouched huntouched⟩, .inl huntouched.parserStage⟩, .inr (.inl huntouched.parserStage)⟩

/-! ## SETTINGS -/

theorem onReceivedSetting_untouched (c : Client) (svalue : SettingValue) :
    Untouched c (c.onReceivedSetting svalue).1 := by
  unfold onReceivedSetting
  split
  · exact ⟨rfl, rfl, rfl, rfl, rfl, rfl, .refl _⟩
  · exact .refl c
  · exact ⟨rfl, rfl, rfl, rfl, rfl, rfl, .refl _⟩
  · exact .refl c
  · split
    · exact .refl c
    · exact ⟨rfl, rfl, rfl, rfl, rfl, rfl, .refl _⟩
  · exact ⟨rfl, rfl, rfl, rfl, rfl, rfl, .refl _⟩
  · exact .refl c

theorem onReceivedSetting_failed {svalue : SettingValue} {ec : Error} (h : (c.onReceivedSetting svalue).2 = some ec) :
    failed (some ec) = true := by
  unfold onReceivedSetting at h
  split at h
  · cases h
  · split at h
    · cases h; rfl
    · cases h
  · cases h
  · split at h
    · cases h; rfl
    · cases h
  · split at h
    · cases h; rfl
    · cases h
  · cases h
  · cases h

theorem applyLocalSettings_untouched (c : Client) (sframe : SettingsFrame) :
    Untouched c (c.applyLocalSettings sframe) := by
  induction sframe generalizing c with
  | nil => exact .refl c
  | cons svalue sframe ih =>
      have hone : Untouched c (c.applyLocalSetting svalue) := by
        unfold applyLocalSetting
        split <;> exact ⟨rfl, rfl, rfl, rfl, rfl, rfl, .refl _⟩
      exact hone.trans (ih _)

/-- What the loop over the values leaves: whole values are read, and it goes on until the frame is read, the bytes of a
value are missing or a value is refused. -/
structure SettingsPass (c : Client) (payload : PayloadStage) (n : Nat) (r : Client × PayloadStage × SettingsRead) :
    Prop where
  step : PayloadStep c n r.1
  parserStage : r.1.parserStage = c.parserStage
  stage : r.2.1 = { payload with consumedSize := payload.consumedSize + n }
  whole : n % 6 = 0
  ends : match r.2.2 with
    | .complete => payload.totalSize ≤ payload.consumedSize + n
    | .exhausted => payload.consumedSize + n < payload.totalSize ∧ r.1.rbuf.length < 6
    | .error ec => failed (some ec) = true

theorem readSettings_pass (c : Client) (payload : PayloadStage) : ∃ n, SettingsPass c payload n (c.readSettings payload) := by
  fun_induction readSettings c payload with
  | case1 c payload hmore hshort =>
      exact ⟨0, ⟨Nat.zero_le _, rfl, rfl, rfl, rfl, fun _ => rfl, .refl _⟩, rfl, rfl, rfl, hmore, hshort⟩
  | case2 c payload hmore hshort svalue payload' d ec hset =>
      have huntouched := onReceivedSetting_untouched { c with rbuf := c.rbuf.drop SettingValue.neededWriteSize } svalue
      have hfailed := onReceivedSetting_failed (congrArg Prod.snd hset)
      rw [hset] at huntouched
      have hstep : PayloadStep c 6 { c with rbuf := c.rbuf.drop SettingValue.neededWriteSize } :=
        ⟨by simpa [SettingValue.neededWriteSize] using hshort, rfl, rfl, rfl, rfl, fun hx => hx, .refl _⟩
      exact ⟨6, hstep.untouched huntouched, huntouched.parserStage, rfl, rfl, hfailed⟩
  | case3 c payload hmore hshort svalue payload' d hset ih =>
      have huntouched := onReceivedSetting_untouched { c with rbuf := c.rbuf.drop SettingValue.neededWriteSize } svalue
      rw [hset] at huntouched
      have hstep : PayloadStep c 6 { c with rbuf := c.rbuf.drop SettingValue.neededWriteSize } :=
        ⟨by simpa [SettingValue.neededWriteSize] using hshort, rfl, rfl, rfl, rfl, fun hx => hx, .refl _⟩
      obtain ⟨n, ih⟩ := ih
      have hadd : payload'.consumedSize + n = payload.consumedSize + (6 + n) := by
        simp only [payload', SettingValue.neededWriteSize]; omega
      refine ⟨6 + n, (hstep.untouched huntouched).trans ih.step, ih.parserStage.trans huntouched.parserStage,
        by rw [ih.stage, hadd], by have := ih.whole; omega, ?_⟩
      have hends := ih.ends
      rw [hadd] at hends
      exact hends
  | case4 c payload hdone =>
      exact ⟨0, ⟨Nat.zero_le _, rfl, rfl, rfl, rfl, fun hx => hx, .refl _⟩, rfl, rfl, rfl, by simp only; omega⟩

theorem minReadSize_of_not_ack (hacc : Accepted c.lastClientId header payload) (htype : header.type = .settings)
    (hpos : 0 < header.length) : payload.minReadSize = 6 := by
  have hkind := hacc.kind
  simp only [Kind, htype] at hkind
  rw [hacc.minReadSize, FrameHeader.minPayloadSize]
  simp only [htype]
  rw [if_neg fun hack => by have := hkind.2.1 hack; omega]

theorem processSettingsFramePayload_pass (hacc : Accepted c.lastClientId header payload)
    (htype : header.type = .settings) (hmin : payload.minReadSize ≤ c.rbuf.length)
    (hec : failed (c.processSettingsFramePayload header payload).2 = false) :
    PayloadPass c header (c.processSettingsFramePayload header payload).1 ∧
      Shrinks c (c.processSettingsFramePayload header payload).1 := by
  have hkind := hacc.kind
  simp only [Kind, htype] at hkind
  obtain ⟨n, hstep, -, hstage, hwhole, hends⟩ := readSettings_pass c payload
  unfold processSettingsFramePayload at hec ⊢
  rcases hread : c.readSettings payload with ⟨d, p, ends⟩
  simp only [hread] at hstep hstage hends hec ⊢
  cases ends with
  | exhausted =>
      subst hstage
      have htotal := hacc.totalSize
      have hlt := hacc.lt
      have hlen := hstep.length_rbuf
      have hsix := minReadSize_of_not_ack hacc htype (by omega)
      refine ⟨⟨⟨n, hstep.setStage _⟩, .inr ⟨_, rfl, htotal, hacc.minReadSize, hlt, by simp only; omega, hacc.streamId, ?_⟩⟩,
        .inl (by simp only; omega)⟩
      simp only [Kind, htype]
      exact ⟨hkind.1, hkind.2.1, by omega, .inl (by omega)⟩
  | error ec => rw [hends] at hec; cases hec
  | complete =>
      refine passes_of_step hstep ?_
      simp only
      split
      · exact ⟨rfl, rfl, rfl, rfl, rfl, rfl, .refl _⟩
      · split
        · exact ⟨rfl, rfl, rfl, rfl, rfl, rfl, .refl _⟩
        · rename_i oldest rest hpending
          refine .trans ?_ (applyLocalSettings_untouched _ oldest)
          exact ⟨rfl, rfl, rfl, rfl, rfl, rfl, .refl _⟩

/-! ## Frames that are read as a whole -/

theorem passes_of_ends {c' : Client} {n : Nat} (hle : n ≤ c.rbuf.length)
    (huntouched : Untouched { c with rbuf := c.rbuf.drop n, parserStage := .header } c') :
    PayloadPass c header c' ∧ Shrinks c c' :=
  passes_of_step (d := { c with rbuf := c.rbuf.drop n }) ⟨hle, rfl, rfl, rfl, rfl, fun hx => hx, .refl _⟩ huntouched

theorem processPriorityFramePayload_pass (hacc : Accepted c.lastClientId header payload)
    (htype : header.type = .priority) (hmin : payload.minReadSize ≤ c.rbuf.length) :
    PayloadPass c header (c.processPriorityFramePayload payload) ∧ Shrinks c (c.processPriorityFramePayload payload) := by
  have hkind := hacc.kind
  simp only [Kind, htype] at hkind
  have hfive : 5 ≤ c.rbuf.length := by
    simpa only [hacc.minReadSize, FrameHeader.minPayloadSize, htype] using hmin
  have htotal := hacc.totalSize
  unfold processPriorityFramePayload
  rw [if_neg (by intro hnil; simp [hnil] at hfive), discardPayload, subSize_of_le (by omega) (by omega)]
  have hconsume : min (payload.totalSize - payload.consumedSize) c.rbuf.length = 5 := by omega
  simp only [hconsume]
  rw [if_pos (by rw [addSize_of_lt (by omega)]; omega)]
  exact passes_of_ends hfive (.refl _)

theorem processPingFramePayload_pass (hacc : Accepted c.lastClientId header payload) (htype : header.type = .ping)
    (hmin : payload.minReadSize ≤ c.rbuf.length) :
    PayloadPass c header (c.processPingFramePayload header payload) ∧
      Shrinks c (c.processPingFramePayload header payload) := by
  have hkind := hacc.kind
  simp only [Kind, htype] at hkind
  have height : 8 ≤ c.rbuf.length := by
    simpa only [hacc.minReadSize, FrameHeader.minPayloadSize, htype] using hmin
  have htotal := hacc.totalSize
  unfold processPingFramePayload
  rw [if_neg (by omega)]
  refine passes_of_ends height ?_
  simp only
  split
  · exact ⟨rfl, rfl, rfl, rfl, rfl, rfl, .refl _⟩
  · split
    · exact ⟨rfl, rfl, rfl, rfl, rfl, rfl, .refl _⟩
    · exact .refl _

theorem processRstFramePayload_pass (hacc : Accepted c.lastClientId header payload) (htype : header.type = .rstStream)
    (hmin : payload.minReadSize ≤ c.rbuf.length) :
    PayloadPass c header (c.processRstFramePayload header payload) ∧
      Shrinks c (c.processRstFramePayload header payload) := by
  have hkind := hacc.kind
  simp only [Kind, htype] at hkind
  have hfour : 4 ≤ c.rbuf.length := by
    simpa only [hacc.minReadSize, FrameHeader.minPayloadSize, htype] using hmin
  have htotal := hacc.totalSize
  unfold processRstFramePayload
  rw [if_neg (by omega)]
  exact passes_of_ends hfour (closeOpenStream_untouched _ _ _ _)

theorem processWindowUpdateFramePayload_pass (hacc : Accepted c.lastClientId header payload)
    (htype : header.type = .windowUpdate) (hmin : payload.minReadSize ≤ c.rbuf.length)
    (hec : failed (c.processWindowUpdateFramePayload header payload).2 = false) :
    PayloadPass c header (c.processWindowUpdateFramePayload header payload).1 ∧
      Shrinks c (c.processWindowUpdateFramePayload header payload).1 := by
  have hkind := hacc.kind
  simp only [Kind, htype] at hkind
  have hfour : 4 ≤ c.rbuf.length := by
    simpa only [hacc.minReadSize, FrameHeader.minPayloadSize, htype] using hmin
  have htotal := hacc.totalSize
  unfold processWindowUpdateFramePayload at hec ⊢
  rw [if_neg (by omega)] at hec ⊢
  simp only at hec ⊢
  refine passes_of_ends hfour ?_
  split at hec
  · rename_i hzero
    rw [if_pos hzero]
    split at hec
    · rename_i hid
      rw [if_pos hid]
      have huntouched := closeOpenStream_untouched { c with rbuf := c.rbuf.drop 4 } header.streamId
        (some .protocolError) true
      exact ⟨huntouched.rbuf, rfl, huntouched.lastHeader, huntouched.rbufExhausted, huntouched.stopped,
        huntouched.lastClientId, huntouched.streamIds⟩
    · simp [failed, Error.value] at hec
  · rename_i hpos
    rw [if_neg hpos]
    exact .refl _

theorem processGoawayFramePayload_pass (hacc : Accepted c.lastClientId header payload) (htype : header.type = .goaway)
    (hstage : c.parserStage = .payload payload) :
    PayloadPass c header (c.processGoawayFramePayload payload).1 ∧
      (payload.totalSize ≤ c.rbuf.length → Shrinks c (c.processGoawayFramePayload payload).1) := by
  have hkind := hacc.kind
  simp only [Kind, htype] at hkind
  have htotal := hacc.totalSize
  unfold processGoawayFramePayload
  split
  · rename_i hshort
    exact ⟨⟨⟨0, Nat.zero_le _, rfl, rfl, rfl, rfl, fun _ => rfl, .refl _⟩, .inr ⟨payload, hstage, hacc⟩⟩,
      fun hall => absurd hall (by omega)⟩
  · rename_i hall
    simp only [List.drop_drop]
    refine ⟨(@passes_of_ends c header _ (8 + (payload.totalSize - (payload.consumedSize + 8))) ?_ ?_).1, fun _ => .inr (.inl rfl)⟩
    · omega
    · exact ⟨rfl, rfl, rfl, rfl, rfl, rfl, .refl _⟩

/-! ## All the types -/

theorem processFramePayload_pass (hacc : Accepted c.lastClientId header payload)
    (hstage : c.parserStage = .payload payload) (hmin : payload.minReadSize ≤ c.rbuf.length)
    (hec : failed (c.processFramePayload header payload).2 = false) :
    PayloadPass c header (c.processFramePayload header payload).1 := by
  have hkind := hacc.kind
  cases htype : header.type with
  | data => simpa only [processFramePayload, htype] using processDataFramePayload_pass hacc htype
  | headers =>
      simp only [processFramePayload, htype] at hec ⊢
      exact processHeadersFramePayload_pass hacc htype hec
  | priority => simpa only [processFramePayload, htype] using (processPriorityFramePayload_pass hacc htype hmin).1
  | rstStream => simpa only [processFramePayload, htype] using (processRstFramePayload_pass hacc htype hmin).1
  | settings =>
      simp only [processFramePayload, htype] at hec ⊢
      exact (processSettingsFramePayload_pass hacc htype hmin hec).1
  | pushPromise => simp only [Kind, htype] at hkind
  | ping => simpa only [processFramePayload, htype] using (processPingFramePayload_pass hacc htype hmin).1
  | goaway => simpa only [processFramePayload, htype] using (processGoawayFramePayload_pass hacc htype hstage).1
  | windowUpdate =>
      simp only [processFramePayload, htype] at hec ⊢
      exact (processWindowUpdateFramePayload_pass hacc htype hmin hec).1
  | continuation =>
      simp only [processFramePayload, htype] at hec ⊢
      exact processContinuationFramePayload_pass hacc htype hec
  | unknown value => simp only [Kind, htype] at hkind

/-- The priority of a HEADERS frame is cut, or the end of a GOAWAY frame: the pass changes nothing. -/
def Stuck (c : Client) (header : FrameHeader) (payload : PayloadStage) : Prop :=
  (header.type = .headers ∧ (c.findStream header.streamId).isSome ∧ PriorityCut header.flags c.rbuf payload) ∨
    (header.type = .goaway ∧ c.rbuf.length < payload.totalSize)

/-- A pass comes nearer to the end of the loop, but for the frames on which it hangs. -/
theorem processFramePayload_shrinks (hacc : Accepted c.lastClientId header payload)
    (hstage : c.parserStage = .payload payload) (hmin : payload.minReadSize ≤ c.rbuf.length)
    (hne : c.rbuf ≠ [] ∨ payload.totalSize = 0 ∧ payload.consumedSize = 0) (hstuck : ¬c.Stuck header payload)
    (hec : failed (c.processFramePayload header payload).2 = false) :
    Shrinks c (c.processFramePayload header payload).1 := by
  have hkind := hacc.kind
  cases htype : header.type with
  | data =>
      simp only [processFramePayload, htype] at hec ⊢
      exact processDataFramePayload_shrinks hacc htype hne hec
  | headers =>
      simp only [Kind, htype] at hkind
      have htotal := hacc.totalSize
      simp only [processFramePayload, htype] at hec ⊢
      exact processHeadersFramePayload_shrinks hacc (hne.resolve_right (by omega))
        (fun hopen hcut => hstuck (.inl ⟨htype, hopen, hcut⟩)) hec
  | priority => simpa only [processFramePayload, htype] using (processPriorityFramePayload_pass hacc htype hmin).2
  | rstStream => simpa only [processFramePayload, htype] using (processRstFramePayload_pass hacc htype hmin).2
  | settings =>
      simp only [processFramePayload, htype] at hec ⊢
      exact (processSettingsFramePayload_pass hacc htype hmin hec).2
  | pushPromise => simp only [Kind, htype] at hkind
  | ping => simpa only [processFramePayload, htype] using (processPingFramePayload_pass hacc htype hmin).2
  | goaway =>
      simp only [processFramePayload, htype]
      exact (processGoawayFramePayload_pass hacc htype hstage).2 (Nat.le_of_not_lt fun h => hstuck (.inr ⟨htype, h⟩))
  | windowUpdate =>
      simp only [processFramePayload, htype] at hec ⊢
      exact (processWindowUpdateFramePayload_pass hacc htype hmin hec).2
  | continuation =>
      simp only [processFramePayload, htype] at hec ⊢
      exact processContinuationFramePayload_shrinks hacc (hne.imp_right fun h => by omega) hec
  | unknown value => simp only [Kind, htype] at hkind

end Client

end Rad.Http2
