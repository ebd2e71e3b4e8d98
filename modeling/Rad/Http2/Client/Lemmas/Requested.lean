import Rad.Http2.Client.Lemmas.Answers

/-!
# The limit on header lists that is requested last

The value that the client will have applied once its SETTINGS frames are sent and acknowledged. Only `max_headers_size`
changes it.
-/

namespace Rad.Http2

open Lib Client

variable {s t : System} {a : Action} {out : List SentFrame} {xs : List Step}

/-- The value of SETTINGS_MAX_HEADER_LIST_SIZE in a frame. -/
def headerListSize (sframe : SettingsFrame) : Option Nat := (sframe.find? (·.id == 6)).map SettingValue.value

/-- The value that is requested last: in the frame to be sent, in the last one to be acknowledged, or the applied one. The
preface requests a value of its own. -/
def System.requested (s : System) : Nat :=
  ((s.client.pendingSendSettings.or s.client.pendingAckSettings.getLast?).bind headerListSize).getD
    (if s.connected then s.client.selfMaxHeaderListSize else 16 * 1024)

/-- The SETTINGS frames of the client are the one of the preface and those of `max_headers_size`. -/
def IsOwnFrame (sframe : SettingsFrame) : Prop := sframe = connectSettings ∨ ∃ n, sframe = [⟨6, n⟩]

theorem IsOwnFrame.headerListSize {sframe : SettingsFrame} (h : IsOwnFrame sframe) (own : OwnSettings) :
    headerListSize sframe = some (own.applyFrame sframe).maxHeaderListSize := by
  rcases h with rfl | ⟨n, rfl⟩
  · rfl
  · rfl

structure OwnFrames (s : System) : Prop where
  send : ∀ sframe, s.client.pendingSendSettings = some sframe → ∃ n, sframe = [⟨6, n⟩]
  ack : ∀ sframe ∈ s.client.pendingAckSettings, IsOwnFrame sframe
  connected : s.connected = false → s.client.pendingAckSettings = []

/-! ## Steps -/

/-- What of the state has to do with the client's own settings. -/
structure Settings where
  send : Option SettingsFrame
  ack : List SettingsFrame
  own : OwnSettings
  connected : Bool

def System.settings (s : System) : Settings where
  send := s.client.pendingSendSettings
  ack := s.client.pendingAckSettings
  own := s.client.own
  connected := s.connected

/-- What a step does to the client's own settings. -/
inductive SettingsCase (s : System) (a : Action) (t : System) : Prop where
  | same (ha : ∀ n, a ≠ .maxHeadersSize n) (h : t.settings = s.settings)
  | acked (oldest : SettingsFrame) (rest : List SettingsFrame) (ha : ∀ n, a ≠ .maxHeadersSize n)
      (hconnected : s.connected = true) (hpending : s.client.pendingAckSettings = oldest :: rest)
      (h : t.settings = { s.settings with ack := rest, own := s.client.own.applyFrame oldest })
  | connect (ha : ∀ n, a ≠ .maxHeadersSize n) (hconnected : s.connected = false)
      (h : t.settings =
        { s.settings with ack := s.client.pendingAckSettings ++ [connectSettings], connected := true })
  | flush (ha : ∀ n, a ≠ .maxHeadersSize n) (hconnected : s.connected = true)
      (h : t.settings =
        { s.settings with
          send := none, ack := s.client.pendingAckSettings ++ s.client.pendingSendSettings.toList })
  | call (n : Nat) (ha : a = .maxHeadersSize n) (h : t = { s with client := s.client.maxHeadersSize n })

theorem System.settings_of_pending (hpending : t.client.pending = s.client.pending)
    (hsend : t.client.pendingSendSettings = s.client.pendingSendSettings) (hconnected : t.connected = s.connected) :
    t.settings = s.settings := by
  simp only [Client.pending, Pending.mk.injEq] at hpending
  simp only [System.settings, hpending, hsend, hconnected]

theorem Action.perform_pendingSendSettings (c : Client) {a : Action} (hcall : ∀ n, a ≠ .maxHeadersSize n)
    (hflush : a = .flush → c.toSendGoawayEc.isSome) :
    (a.perform c).1.pendingSendSettings = c.pendingSendSettings := by
  by_cases hquiet : a.isQuiet = true
  · exact congrArg Queues.pendingSendSettings (Action.perform_queues c hquiet)
  · cases a with
    | connect => rfl
    | ping => rfl
    | flush =>
        obtain ⟨ec, hec⟩ := Option.isSome_iff_exists.1 (hflush rfl)
        simp only [Action.perform, preparePendingSendQueue, hec]
    | finishBodies =>
        obtain ⟨_, _, _, _, heq⟩ := finishBodies_streamsOnly c
        rw [Action.perform, heq]
    | maxHeadersSize n => exact absurd rfl (hcall n)
    | _ => exact absurd rfl hquiet

theorem SystemRun.settingsCase (hrun : SystemRun xs s) (hstep : s.step a = some (t, out)) : SettingsCase s a t := by
  have hinv := SystemRun.invariant hrun
  by_cases hpass : a = .pass
  · subst hpass
    have hcall : ∀ n, Action.pass ≠ .maxHeadersSize n := fun n h => by cases h
    have hkeeps : t.client.pendingSendSettings = s.client.pendingSendSettings ∧ t.connected = s.connected := by
      cases System.step_cases hstep with
      | next u ha hnext ht hout =>
          rw [ht]
          exact ⟨(parsePass_next hnext).2.keeps.pendingSendSettings, rfl⟩
      | done c ha hdone ht hout =>
          obtain ⟨rbufExhausted, rfl⟩ := hdone.eq
          rw [ht]
          exact ⟨rfl, rfl⟩
      | perform ha => exact absurd rfl ha
    obtain ⟨hsend, hconnected⟩ := hkeeps
    have htrue : s.connected = true := System.enabled_of_step hstep
    cases hinv.answers hstep with
    | none hr h => exact .same hcall (System.settings_of_pending h hsend hconnected)
    | settings header hr h =>
        simp only [Client.pending, Pending.mk.injEq] at h
        exact .same hcall (by simp only [System.settings, h, hsend, hconnected])
    | ping opaqueData hr h =>
        simp only [Client.pending, Pending.mk.injEq] at h
        exact .same hcall (by simp only [System.settings, h, hsend, hconnected])
    | settingsAck header oldest rest hr hpending h =>
        simp only [Client.pending, Pending.mk.injEq] at h
        exact .acked oldest rest hcall htrue hpending (by simp only [System.settings, h, hsend, hconnected])
  · cases System.step_cases hstep with
    | next u ha => exact absurd ha hpass
    | done c ha => exact absurd ha hpass
    | perform _ hparsing henabled ht hout =>
        by_cases hcall : ∃ n, a = .maxHeadersSize n
        · obtain ⟨n, rfl⟩ := hcall
          refine .call n rfl (ht.trans ?_)
          simp [Action.perform]
        · have hcall : ∀ n, a ≠ .maxHeadersSize n := fun n ha => hcall ⟨n, ha⟩
          cases hrun.sent hstep with
          | none hconnect hflush heq =>
              refine .same hcall (System.settings_of_pending ?_ ?_ ?_)
              · rw [ht]
                exact Action.perform_pending s.client hconnect hflush
              · rw [ht]
                exact Action.perform_pendingSendSettings s.client hcall hflush
              · simp [ht, hconnect]
          | connect ha heq =>
              subst ha
              have hconnected : s.connected = false := by
                simp only [Action.enabled, Bool.and_eq_true, Bool.not_eq_true'] at henabled
                exact henabled.1
              refine .connect hcall hconnected ?_
              rw [ht]
              simp [System.settings, Action.perform, sendPreface, Client.own]
          | flush ha hgoaway heq =>
              subst ha
              refine .flush hcall henabled ?_
              rw [ht]
              simp [System.settings, Action.perform, preparePendingSendQueue, hgoaway, Client.own]

/-- What `max_headers_size` does: it queues the value, unless it is the applied one or the one that is requested last. -/
inductive HeadersSizeCase (c : Client) (n : Nat) : Client → Prop where
  | kept (h : c.selfMaxHeaderListSize = n ∨ c.stopped = true ∨
      c.pendingSendSettings.or c.pendingAckSettings.getLast? = some [⟨6, n⟩]) : HeadersSizeCase c n c
  | queued (hstopped : c.stopped = false) (hne : c.selfMaxHeaderListSize ≠ n) :
      HeadersSizeCase c n { c with pendingSendSettings := some [⟨6, n⟩] }

theorem Client.maxHeadersSize_case {c : Client} (hsend : ∀ sframe, c.pendingSendSettings = some sframe → ∃ m, sframe = [⟨6, m⟩])
    (n : Nat) : HeadersSizeCase c n (c.maxHeadersSize n) := by
  unfold maxHeadersSize
  split
  · rename_i heq
    exact .kept (.inl heq)
  · rename_i hne
    unfold updateSettings
    by_cases hstopped : c.stopped = true
    · rw [if_pos (by simp [hstopped])]
      exact .kept (.inr (.inl hstopped))
    · rw [if_neg (by simp [hstopped])]
      have hrunning : c.stopped = false := by simpa using hstopped
      split
      · rename_i heq
        refine .kept (.inr (.inr ?_))
        rw [heq]
        rfl
      · split
        · rename_i hlast
          simp only [Bool.and_eq_true, Option.isNone_iff_eq_none, decide_eq_true_eq] at hlast
          refine .kept (.inr (.inr ?_))
          rw [hlast.1, hlast.2]
          rfl
        · split
          · exact .queued hrunning hne
          · rename_i sframe hpending
            obtain ⟨m, rfl⟩ := hsend sframe hpending
            exact .queued hrunning hne

/-! ## Runs -/

theorem SystemRun.ownFrames (hrun : SystemRun xs s) : OwnFrames s := by
  induction hrun with
  | start => exact ⟨(by simp), (by simp), fun _ => rfl⟩
  | next h hstep ih =>
      cases SystemRun.settingsCase h hstep with
      | same ha h =>
          simp only [System.settings, Settings.mk.injEq] at h
          obtain ⟨hsend, hack, -, hconnected⟩ := h
          exact ⟨by rw [hsend]; exact ih.send, by rw [hack]; exact ih.ack, by rw [hconnected, hack]; exact ih.connected⟩
      | acked oldest rest ha hconnected hpending h =>
          simp only [System.settings, Settings.mk.injEq] at h
          obtain ⟨hsend, hack, -, hconnected'⟩ := h
          refine ⟨by rw [hsend]; exact ih.send, fun sframe hmem => ?_, fun hfalse => ?_⟩
          · rw [hack] at hmem
            exact ih.ack sframe (by rw [hpending]; exact List.mem_cons_of_mem _ hmem)
          · rw [hconnected', hconnected] at hfalse
            cases hfalse
      | connect ha hconnected h =>
          simp only [System.settings, Settings.mk.injEq] at h
          obtain ⟨hsend, hack, -, hconnected'⟩ := h
          refine ⟨by rw [hsend]; exact ih.send, fun sframe hmem => ?_, fun hfalse => ?_⟩
          · rw [hack, ih.connected hconnected, List.nil_append, List.mem_singleton] at hmem
            exact .inl hmem
          · rw [hconnected'] at hfalse
            cases hfalse
      | flush ha hconnected h =>
          simp only [System.settings, Settings.mk.injEq] at h
          obtain ⟨hsend, hack, -, hconnected'⟩ := h
          refine ⟨fun sframe hsome => ?_, fun sframe hmem => ?_, fun hfalse => ?_⟩
          · rw [hsend] at hsome
            cases hsome
          · rw [hack, List.mem_append, Option.mem_toList] at hmem
            rcases hmem with hmem | hmem
            · exact ih.ack sframe hmem
            · exact .inr (ih.send sframe hmem)
          · rw [hconnected', hconnected] at hfalse
            cases hfalse
      | call n ha h =>
          have hcase := maxHeadersSize_case ih.send n
          rw [h]
          generalize maxHeadersSize _ n = c at hcase
          cases hcase with
          | kept hkept => exact ih
          | queued hstopped hne =>
              refine ⟨fun sframe hsome => ?_, ih.ack, ih.connected⟩
              cases hsome
              exact ⟨n, rfl⟩

theorem System.requested_eq (s : System) : s.requested =
    ((s.settings.send.or s.settings.ack.getLast?).bind headerListSize).getD
      (if s.settings.connected then s.settings.own.maxHeaderListSize else 16 * 1024) := rfl

/-- Other steps than `max_headers_size` do not change what is requested last. -/
theorem SystemRun.requested_step (hrun : SystemRun xs s) (hstep : s.step a = some (t, out))
    (ha : ∀ n, a ≠ .maxHeadersSize n) : t.requested = s.requested := by
  have hframes := hrun.ownFrames
  rw [System.requested_eq, System.requested_eq]
  cases hrun.settingsCase hstep with
  | same ha h => rw [h]
  | acked oldest rest ha hconnected hpending h =>
      rw [h]
      have hown := (hframes.ack oldest (by rw [hpending]; exact List.mem_cons_self)).headerListSize s.client.own
      simp only [System.settings, hpending, hconnected, if_true]
      cases hsend : s.client.pendingSendSettings with
      | some sframe =>
          -- the frame to be sent decides
          obtain ⟨n, rfl⟩ := hframes.send sframe hsend
          rfl
      | none =>
          cases rest with
          | nil => simp [hown]
          | cons next rest =>
              have hlast : ((next :: rest).getLast?.bind headerListSize).isSome := by
                have hmem : (next :: rest).getLast (by simp) ∈ s.client.pendingAckSettings := by
                  rw [hpending]
                  exact List.mem_cons_of_mem _ (List.getLast_mem _)
                rw [List.getLast?_eq_some_getLast (by simp), Option.bind_some,
                  (hframes.ack _ hmem).headerListSize s.client.own]
                rfl
              obtain ⟨n, hn⟩ := Option.isSome_iff_exists.1 hlast
              simp only [Option.none_or, List.getLast?_cons_cons, hn, Option.getD_some]
  | connect ha hconnected h =>
      rw [h]
      simp only [System.settings, hframes.connected hconnected, hconnected]
      cases hsend : s.client.pendingSendSettings with
      | none => rfl
      | some sframe =>
          obtain ⟨n, rfl⟩ := hframes.send sframe hsend
          rfl
  | flush ha hconnected h =>
      rw [h]
      simp only [System.settings, hconnected]
      cases hsend : s.client.pendingSendSettings with
      | none => simp
      | some sframe => simp
  | call n ha' => exact absurd ha' (ha n)

/-- A call of `max_headers_size` is the last request, or it is dropped. -/
theorem SystemRun.requested_call (hrun : SystemRun xs s) {n : Nat} (hstep : s.step (.maxHeadersSize n) = some (t, out)) :
    t.requested = n ↔ s.requested = n ∨ (s.client.stopped = false ∧ s.client.selfMaxHeaderListSize ≠ n) := by
  cases System.step_cases hstep with
  | next u ha => cases ha
  | done c ha => cases ha
  | perform ha hparsing henabled ht hout =>
      have hcase := maxHeadersSize_case hrun.ownFrames.send n
      have ht : t = { s with client := s.client.maxHeadersSize n } := ht.trans (by simp [Action.perform])
      rw [ht]
      generalize s.client.maxHeadersSize n = c at hcase
      cases hcase with
      | queued hstopped hne =>
          refine ⟨fun _ => .inr ⟨hstopped, hne⟩, fun _ => ?_⟩
          rfl
      | kept hkept =>
          refine ⟨.inl, ?_⟩
          rintro (h | ⟨hstopped, hne⟩)
          · exact h
          · rcases hkept with heq | hstop | hlast
            · exact absurd heq hne
            · rw [hstopped] at hstop
              cases hstop
            · rw [System.requested, hlast]
              rfl

theorem SystemRun.requested_run {ys : List Step} {u : System} (hrun : SystemRun xs t) (hrest : Run System.step t ys u)
    (hcalls : ∀ y ∈ ys, ∀ m, y.action ≠ .maxHeadersSize m) : u.requested = t.requested := by
  induction hrest with
  | start => rfl
  | next h hstep ih =>
      have hbefore := ih fun y hy => hcalls y (List.mem_append_left _ hy)
      have hnow := SystemRun.requested_step (hrun.append h) hstep
        (hcalls _ (List.mem_append_right _ (List.mem_singleton_self _)))
      exact hnow.trans hbefore

end Rad.Http2
