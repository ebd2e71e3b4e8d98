import Rad.Url.Lemmas.Relative

/-!
# The states of the authority keep the invariant
-/

namespace Rad.Url

variable {base : Option UrlRecord} {input : Bytes} {v : View} {url : UrlRecord} {ctx : UrlParseContext}
  {before unit rest : Bytes} {turn : Turn}

/-- A byte of a code point that does not end the authority. -/
theorem isAuthorityEnd_unit (hv : v.Shows unit rest) (hend : endsAuthority v url = false) :
    ∀ b ∈ unit, isAuthorityEnd url.scheme b = false := by
  intro b hb
  simp only [endsAuthority, Bool.or_eq_false_iff, beq_eq_false_iff_ne, ne_eq, Bool.and_eq_false_iff] at hend
  obtain ⟨⟨⟨⟨heof, hslash⟩, hquery⟩, hfragment⟩, hback⟩ := hend
  rw [(hv.not_eof heof).1] at hb
  simp only [isAuthorityEnd, Bool.or_eq_false_iff, beq_eq_false_iff_ne, ne_eq, Bool.and_eq_false_iff]
  refine ⟨⟨⟨?_, ?_⟩, ?_⟩, ?_⟩
  · rintro rfl
    exact hslash (eq_toNat_of_mem_utf8Encode (by decide) hb)
  · rintro rfl
    exact hquery (eq_toNat_of_mem_utf8Encode (by decide) hb)
  · rintro rfl
    exact hfragment (eq_toNat_of_mem_utf8Encode (by decide) hb)
  · rcases hback with hback | hspecial
    · refine .inl ?_
      rintro rfl
      exact hback (eq_toNat_of_mem_utf8Encode (by decide) hb)
    · exact .inr hspecial

/-- The end of the authority is the end of the text or one of the bytes. -/
theorem isAuthorityEnd_head (hv : v.Shows unit rest) (hend : endsAuthority v url = true) {b : UInt8} {tail : Bytes}
    (htext : unit ++ rest = b :: tail) : isAuthorityEnd url.scheme b = true := by
  have hunit (b' : UInt8) (hc : v.c = b'.toNat) (hb : b' < 0x80) (hne : b' ≠ 0) : b = b' := by
    rw [hv.unit_eq hc hb hne] at htext
    cases htext
    rfl
  simp only [endsAuthority, Bool.or_eq_true, Bool.and_eq_true, beq_iff_eq] at hend
  rcases hend with (((heof | hc) | hc) | hc) | ⟨hc, hspecial⟩
  · obtain ⟨-, rfl, rfl⟩ := hv.is_eof heof
    cases htext
  · rw [hunit 0x2f hc (by decide) (by decide)]
    rfl
  · rw [hunit 0x3f hc (by decide) (by decide)]
    rfl
  · rw [hunit 0x23 hc (by decide) (by decide)]
    rfl
  · rw [hunit 0x5c hc (by decide) (by decide), isAuthorityEnd, hspecial]
    rfl

theorem not_eof_of_not_ends (hend : endsAuthority v url = false) : v.isEof = false := by
  simp only [endsAuthority, Bool.or_eq_false_iff] at hend
  exact hend.1.1.1.1

theorem authorityState_leads (h : Inv base input .authority url ctx before (unit ++ rest)) (hv : v.Shows unit rest)
    (hrun : authorityState v url ctx = .ok turn) : turn.Leads (Inv base input) (Final base input) before unit rest v.isEof := by
  obtain ⟨hin, hsuffix, hends⟩ := h
  rw [authorityState] at hrun
  split at hrun
  · rename_i hat
    cases hrun
    obtain ⟨scheme, userinfo, passwordPos, username, password, rfl⟩ := hin.record
    refine hv.keep (by rw [hat]; decide) ⟨?_, List.nil_suffix, nofun⟩
    obtain ⟨userinfo', passwordPos', username', password', hget, hkeeps⟩ :=
      getUsernameAndPassword_credentials scheme (if ctx.atSignSeen then ascii "%40" ++ ctx.buffer else ctx.buffer) userinfo
        passwordPos username password ctx.passwordTokenSeen hin.userinfo
    rw [hget]
    exact
      { record := ⟨_, _, _, _, _, rfl⟩
        scheme := hin.scheme
        notFile := hin.notFile
        userinfo := hkeeps
        noCredentials := nofun
        path := hin.path }
  split at hrun
  · rename_i hend
    split at hrun
    · cases hrun
    · rename_i hmissing
      cases hrun
      obtain ⟨front, rfl⟩ := hsuffix
      refine ⟨front, ctx.buffer, rfl, rfl, { hin with }, fun hat _ => ?_⟩
      -- the text that is read again is what the authority state has read
      cases hbuffer : ctx.buffer with
      | nil =>
          rw [hbuffer, hat] at hmissing
          exact absurd rfl hmissing
      | cons b buffer => exact ⟨b, _, rfl, hends b (by rw [hbuffer]; exact List.mem_cons_self)⟩
  · rename_i hend
    rw [Bool.not_eq_true] at hend
    cases hrun
    have heof := not_eof_of_not_ends hend
    refine View.Shows.keep_or_end (fun _ => ?_) fun h => Bool.noConfusion (heof.symm.trans h)
    refine ⟨{ hin with }, ?_, ?_⟩
    · rw [(hv.not_eof heof).2.1]
      obtain ⟨front, rfl⟩ := hsuffix
      exact ⟨front, (List.append_assoc _ _ _).symm⟩
    · rw [(hv.not_eof heof).2.1]
      exact List.forall_mem_append.2 ⟨hends, isAuthorityEnd_unit hv hend⟩

/-- The record with a host behind its credentials. -/
theorem inPath_host {host : Bytes} {kind : UrlRecord.HostKind} (hin : InAuthority url ctx)
    (htext : parseHostText ctx.buffer (!isSpecialScheme url.scheme) = .ok (host, kind))
    (hspecial : host = [] → isSpecialScheme url.scheme = false) (hbare : host = [] → ctx.atSignSeen = false) :
    InPath { url.setHostFlag kind with host := host } [] := by
  obtain ⟨scheme, userinfo, passwordPos, username, password, rfl⟩ := hin.record
  have hport : ((credentialsOnly scheme userinfo passwordPos username password).setHostFlag kind).flags.port = false :=
    UrlRecord.setHostFlag_port _ _
  exact
    { scheme := hin.scheme
      special := UrlRecord.setHostFlag_special _ _
      userinfo := hin.userinfo
      host := fun _ =>
        ⟨fun _ => ⟨ctx.buffer, kind, htext⟩, fun hnil h => Bool.noConfusion ((hspecial hnil).symm.trans h),
          fun hfile => absurd hfile hin.notFile⟩
      noHost := fun h => Bool.noConfusion ((UrlRecord.setHostFlag_host _ _).symm.trans h)
      bare := fun hnil =>
        ⟨(UrlRecord.setHostFlag_username _ _).trans (hin.noCredentials (hbare hnil)).1,
          (UrlRecord.setHostFlag_password _ _).trans (hin.noCredentials (hbare hnil)).2, hport⟩
      file := fun hfile => absurd hfile hin.notFile
      port := fun h => Bool.noConfusion (hport.symm.trans h)
      query := nofun
      fragment := nofun
      noPath := rfl
      list := UrlRecord.setHostFlag_opaquePath _ _
      emptyFirst := UrlRecord.setHostFlag_emptyFirst _ _
      isPath := .nil _ }

theorem hostState_leads (h : Inv base input .host url ctx before (unit ++ rest)) (hv : v.Shows unit rest)
    (hrun : hostState v url ctx = .ok turn) : turn.Leads (Inv base input) (Final base input) before unit rest v.isEof := by
  obtain ⟨hin, hfirst⟩ := h
  rw [hostState] at hrun
  split at hrun
  · rename_i hcolon
    split at hrun
    · cases hrun
    · rename_i hne
      cases hparse : parseHost ctx.buffer (!isSpecialScheme url.scheme) url with
      | error e => rw [hparse] at hrun; cases hrun
      | ok url' =>
          rw [hparse] at hrun
          cases hrun
          obtain ⟨host, kind, htext, rfl⟩ := parseHost_ok hparse
          have hhost := parseHostText_ne_nil hne htext
          have hpath := inPath_host hin htext (fun h => absurd h hhost) fun h => absurd h hhost
          refine hv.keep (by rw [hcolon.1]; decide)
            ⟨hin.path ▸ hpath, hin.path, UrlRecord.setHostFlag_host _ _, hhost, hin.notFile, ?_⟩
          obtain ⟨scheme, userinfo, passwordPos, username, password, rfl⟩ := hin.record
          exact UrlRecord.setHostFlag_port _ _
  split at hrun
  · rename_i hend
    split at hrun
    · cases hrun
    · rename_i hspecial
      cases hparse : parseHost ctx.buffer (!isSpecialScheme url.scheme) url with
      | error e => rw [hparse] at hrun; cases hrun
      | ok url' =>
          rw [hparse] at hrun
          cases hrun
          obtain ⟨host, kind, htext, rfl⟩ := parseHost_ok hparse
          have hnil (h : host = []) : ctx.buffer = [] := by
            by_contra hne
            exact parseHostText_ne_nil hne htext h
          have hpath := inPath_host hin htext
            (fun h => Bool.eq_false_iff.2 fun hs => hspecial ⟨hnil h, hs⟩) fun h => by
              rw [← Bool.not_eq_true]
              intro hat
              obtain ⟨b, tail, hhead, hb⟩ := hfirst hat (hnil h)
              rw [isAuthorityEnd_head hv hend hhead] at hb
              cases hb
          exact ⟨hin.path ▸ hpath, hin.path, rfl, UrlRecord.setHostFlag_host _ _⟩
  · rename_i hend
    rw [Bool.not_eq_true] at hend
    cases hrun
    have heof := not_eof_of_not_ends hend
    refine View.Shows.keep_or_end (fun _ => ⟨{ hin with }, fun _ hnil => ?_⟩) fun h =>
      Bool.noConfusion (heof.symm.trans h)
    have hunit := (List.append_eq_nil_iff.1 hnil).2
    rw [(hv.not_eof heof).2.1, (hv.not_eof heof).1] at hunit
    exact absurd hunit (utf8Encode_ne_nil _)

theorem portState_leads (h : Inv base input .port url ctx before (unit ++ rest)) (hv : v.Shows unit rest)
    (hrun : portState v url ctx = .ok turn) : turn.Leads (Inv base input) (Final base input) before unit rest v.isEof := by
  obtain ⟨hpath, hnil, hhost, hne, hfile, hport⟩ := h
  rw [portState] at hrun
  split at hrun
  · rename_i hdigit
    cases hrun
    refine hv.keep (fun hzero => ?_) ⟨hpath, hnil, hhost, hne, hfile, hport⟩
    rw [hzero] at hdigit
    cases hdigit
  split at hrun
  · split at hrun
    · rename_i hbuffer
      cases hrun
      exact ⟨hpath, hnil, hbuffer, hhost⟩
    · split at hrun
      · cases hrun
      · rename_i port hnumeric
        cases hrun
        have hin {url' : UrlRecord} (hurl : url' = { url with flags := url'.flags, port := url'.port })
            (hflags : url'.flags = { url.flags with port := url'.flags.port })
            (hport' : url'.flags.port = true → defaultSchemePort url.scheme ≠ some url'.port) : InPath url' ctx.path := by
          rw [hurl, hflags]
          exact
            { scheme := hpath.scheme, special := hpath.special, userinfo := hpath.userinfo, host := hpath.host
              noHost := hpath.noHost
              bare := fun h => absurd h hne
              file := fun h => absurd h hfile
              port := hport'
              query := hpath.query
              fragment := hpath.fragment
              noPath := hpath.noPath
              list := hpath.list
              emptyFirst := hpath.emptyFirst
              isPath := hpath.isPath }
        show Inv base input .pathStart (if _ then _ else _) _ before (unit ++ rest)
        split
        · exact ⟨hin rfl rfl nofun, hnil, rfl, hhost⟩
        · rename_i hdefault
          exact ⟨hin rfl rfl fun _ => hdefault, hnil, rfl, hhost⟩
  · cases hrun

end Rad.Url
