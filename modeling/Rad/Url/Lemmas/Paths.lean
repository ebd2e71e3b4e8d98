import Rad.Url.Lemmas.Hosts

/-!
# The states from the path on keep the invariant
-/

namespace Rad.Url

variable {base : Option UrlRecord} {input : Bytes} {v : View} {url : UrlRecord} {ctx : UrlParseContext}
  {before unit rest : Bytes} {turn : Turn}

theorem pathStartState_leads (h : Inv base input .pathStart url ctx before (unit ++ rest)) (hv : v.Shows unit rest)
    (hrun : pathStartState v url ctx = .ok turn) : turn.Leads (Inv base input) (Final base input) before unit rest v.isEof := by
  obtain ⟨hpath, hnil, hbuffer, hhost⟩ := h
  have hin : InPath url ctx.path ∧ ∀ b ∈ ctx.buffer, isSegmentByte (isSpecialScheme url.scheme) b = true :=
    ⟨hpath, by rw [hbuffer]; nofun⟩
  have hneeds (hspecial : ¬isSpecialScheme url.scheme = true) : url.NeedsPath → ctx.path ≠ [] := fun h =>
    h.elim (fun h => Bool.noConfusion (hhost.symm.trans h)) fun h => absurd h hspecial
  rw [pathStartState] at hrun
  split at hrun
  · cases hrun
    split
    · exact hin
    · rename_i hc
      refine hv.keep (fun hzero => hc ?_) hin
      rw [hzero]
      decide
  rename_i hspecial
  split at hrun
  · rename_i hc
    cases hrun
    exact hv.keep (by rw [hc]; decide) (hpath.inv_query (hneeds hspecial))
  split at hrun
  · rename_i hc
    cases hrun
    exact hv.keep (by rw [hc]; decide) (hpath.inv_fragment (hneeds hspecial))
  split at hrun
  · cases hrun
    split
    · exact hin
    · rename_i hc
      rw [not_not] at hc
      exact hv.keep (by rw [hc]; decide) hin
  · rename_i heof
    cases hrun
    refine View.Shows.keep_or_end (fun h => ?_) fun _ => hpath.final (hneeds hspecial)
    rw [h] at heof
    exact absurd rfl heof

theorem pathState_leads (h : Inv base input .path url ctx before (unit ++ rest)) (hv : v.Shows unit rest)
    (hrun : pathState v url ctx = .ok turn) : turn.Leads (Inv base input) (Final base input) before unit rest v.isEof := by
  obtain ⟨hpath, hbuffer⟩ := h
  rw [pathState] at hrun
  split at hrun
  · have hend : InPath url (endSegment v url ctx) := hpath.withPath (hpath.isPath.endSegment hbuffer)
    simp only at hrun
    split at hrun
    · rename_i hc
      cases hrun
      exact hv.keep (by rw [hc]; decide) (hend.inv_query fun _ => endSegment_ne_nil (by rw [hc]; decide))
    split at hrun
    · rename_i hc
      cases hrun
      exact hv.keep (by rw [hc]; decide) (hend.inv_fragment fun _ => endSegment_ne_nil (by rw [hc]; decide))
    · cases hrun
      refine View.Shows.keep_or_end (fun _ => ⟨hend, nofun⟩) fun heof => hend.final fun _ => endSegment_ne_nil ?_
      rw [(hv.is_eof heof).1]
      decide
  · rename_i hends
    simp only [Bool.or_eq_true, Bool.and_eq_true, beq_iff_eq, not_or, not_and, Bool.not_eq_true] at hends
    obtain ⟨⟨⟨⟨heof, hslash⟩, hback⟩, -⟩, -⟩ := hends
    cases hencode : percentEncodeSet pathPercentEncodeSet v.encodedCodepoint with
    | error e => rw [hencode] at hrun; cases hrun
    | ok encoded =>
        rw [hencode] at hrun
        cases hrun
        rw [(hv.not_eof heof).2.1, (hv.not_eof heof).1] at hencode
        refine View.Shows.keep_or_end (fun _ => ⟨hpath, ?_⟩) fun h => Bool.noConfusion (heof.symm.trans h)
        refine List.forall_mem_append.2 ⟨hbuffer, isSegmentByte_encoded hslash (fun hspecial hc => ?_) hencode⟩
        rw [hback hc] at hspecial
        cases hspecial

/-! ## Opaque paths -/

/-- A record with an opaque path. -/
theorem behindPath_opaque {scheme path : Bytes} (hscheme : IsScheme scheme) (hspecial : isSpecialScheme scheme = false)
    (hpath : IsOpaquePath path) : BehindPath { blank scheme with path := path, flags := { opaquePath := true } } [] :=
  { scheme := hscheme
    special := hspecial.symm
    userinfo := nofun
    host := nofun
    noHost := fun _ => ⟨hspecial, rfl⟩
    bare := fun _ => ⟨rfl, rfl, rfl⟩
    file := fun _ => ⟨rfl, rfl, rfl⟩
    port := nofun
    query := nofun
    fragment := nofun
    opaqueText := fun _ => ⟨rfl, rfl, hspecial, hpath⟩
    segments := nofun
    needed := nofun
    emptyFirst := rfl }

theorem BehindPath.beginQuery {path : List Bytes} (h : BehindPath url path) : BehindPath (beginQuery url) path :=
  { scheme := h.scheme, special := h.special, userinfo := h.userinfo, host := h.host, noHost := h.noHost
    bare := fun hnil => ⟨(h.bare hnil).username, (h.bare hnil).password, (h.bare hnil).port⟩
    file := fun hfile => ⟨(h.file hfile).username, (h.file hfile).password, (h.file hfile).port⟩
    port := h.port
    query := nofun
    fragment := h.fragment
    opaqueText := h.opaqueText
    segments := h.segments
    needed := h.needed
    emptyFirst := h.emptyFirst }

theorem IsOpaquePath.append {path encoded : Bytes} (h : IsOpaquePath path)
    (hbytes : ∀ b ∈ encoded, isOpaquePathByte b = true) (hhead : path = [] → encoded.head? ≠ some 0x2f) :
    IsOpaquePath (path ++ encoded) := by
  refine ⟨List.forall_mem_append.2 ⟨h.characters, hbytes⟩, ?_⟩
  cases path with
  | nil => exact hhead rfl
  | cons b path => exact h.head

theorem finish_of_nil (h : ctx.path = []) : finish url ctx = url := if_neg fun hne => hne.2 h

theorem getLast?_append_ne {path encoded : Bytes} (hne : encoded ≠ []) :
    (path ++ encoded).getLast? = encoded.getLast? := by
  rw [List.getLast?_append]
  cases h : encoded.getLast? with
  | none => exact absurd (List.getLast?_eq_none_iff.1 h) hne
  | some b => rfl

theorem opaquePathState_leads (hinput : before ++ (unit ++ rest) = input) (hlast : input.getLast? ≠ some 0x20)
    (h : Inv base input .opaquePath url ctx before (unit ++ rest)) (hv : v.Shows unit rest)
    (hrun : opaquePathState v url ctx = .ok turn) :
    turn.Leads (Inv base input) (Final base input) before unit rest v.isEof := by
  obtain ⟨rfl, scheme, path, rfl, hscheme, hspecial, hpath, hhead, hspace⟩ := h
  have hbehind := behindPath_opaque hscheme hspecial hpath
  rw [opaquePathState] at hrun
  -- behind a space nothing follows the mark
  have hnothing {b : UInt8} (hunit : unit = [b]) (hb : b = 0x3f ∨ b = 0x23) (hlast : path.getLast? = some 0x20) :
      rest = [] := by
    by_contra hne
    have hlong := (hspace hlast).2
    rw [hunit] at hlong
    have hlen := List.length_pos_of_ne_nil hne
    have hboth := hlong (by rw [List.length_append, List.length_singleton]; omega)
    rcases hb with rfl | rfl
    · exact hboth.1 rfl
    · exact hboth.2 rfl
  split at hrun
  · rename_i hc
    cases hrun
    have hunit : unit = [0x3f] := hv.unit_eq (b := 0x3f) hc (by decide) (by decide)
    exact hv.keep (by rw [hc]; decide)
      ⟨hbehind.beginQuery, rfl, fun hspace => ⟨hnothing hunit (.inl rfl) hspace.2, rfl, rfl, rfl⟩⟩
  split at hrun
  · rename_i hc
    cases hrun
    have hunit : unit = [0x23] := hv.unit_eq (b := 0x23) hc (by decide) (by decide)
    exact hv.keep (by rw [hc]; decide)
      ⟨hbehind.beginFragment, rfl, fun hspace _ => ⟨hnothing hunit (.inr rfl) hspace.2, rfl, rfl⟩⟩
  rename_i hquery hfragment
  split at hrun
  · rename_i hc
    cases hrun
    have hunit : unit = [0x20] := hv.unit_eq (b := 0x20) hc (by decide) (by decide)
    refine hv.keep (by rw [hc]; decide) ⟨rfl, scheme, _, rfl, hscheme, hspecial, hpath.append ?_ ?_, ?_, ?_⟩
    · rw [hv.remaining]
      split <;> exact List.all_eq_true.1 (by decide)
    · rw [hv.remaining]
      split <;> exact fun _ => by decide
    · intro hnil
      have hne := (List.append_eq_nil_iff.1 hnil).2
      rw [hv.remaining] at hne
      split at hne <;> cases hne
    · rw [hv.remaining]
      split
      · intro hlast
        rw [getLast?_append_ne (show ascii "%20" ≠ [] by decide)] at hlast
        exact absurd hlast (by decide)
      · rename_i hnot
        refine fun _ => ⟨?_, fun hlong => ?_⟩
        · rintro rfl
          rw [hunit, List.append_nil] at hinput
          rw [← hinput, getLast?_append_ne (List.cons_ne_nil _ _)] at hlast
          exact hlast rfl
        · exact ⟨fun h => hnot ⟨hlong, .inl h⟩, fun h => hnot ⟨hlong, .inr h⟩⟩
  rename_i hspaceChar
  split at hrun
  · rename_i heof
    rw [Bool.not_eq_true'] at heof
    obtain ⟨hunit, hcode, -⟩ := hv.not_eof heof
    cases hencode : percentEncodeSet c0ControlPercentEncodeSet v.encodedCodepoint with
    | error e => rw [hencode] at hrun; cases hrun
    | ok encoded =>
        rw [hencode] at hrun
        cases hrun
        rw [hcode, hunit] at hencode
        have hbytes := isOpaquePathByte_encoded hquery hfragment hencode
        have hne := percentEncodeSet_ne_nil holdsHigh_c0Control (utf8Encode_ne_nil v.c) hencode
        refine View.Shows.keep_or_end (fun _ => ?_) fun h => Bool.noConfusion (heof.symm.trans h)
        refine ⟨rfl, scheme, _, rfl, hscheme, hspecial, hpath.append (fun b hb => (hbytes b hb).1) fun hnil hslash => ?_,
          fun hnil => absurd (List.append_eq_nil_iff.1 hnil).2 hne, fun hlast => ?_⟩
        · -- the text did not begin with a solidus
          rcases (hbytes _ (List.mem_of_mem_head? hslash)).2 with hmem | hne
          · have hc := eq_toNat_of_mem_utf8Encode (by decide) hmem
            have hhead := hhead hnil
            rw [hv.unit_eq (b := 0x2f) hc (by decide) (by decide)] at hhead
            exact hhead rfl
          · exact hne.1 rfl
        · rw [getLast?_append_ne hne] at hlast
          rcases (hbytes _ (List.mem_of_getLast? hlast)).2 with hmem | hne
          · exact absurd (eq_toNat_of_mem_utf8Encode (by decide) hmem) hspaceChar
          · exact absurd rfl hne.2
  · rename_i heof
    rw [Bool.not_eq_true, Bool.not_eq_false'] at heof
    cases hrun
    refine View.Shows.keep_or_end (fun h => Bool.noConfusion (heof.symm.trans h)) fun _ => ?_
    refine ⟨hbehind.toPathPart.wellFormed hbehind.toFront hbehind.toRear, fun hends => ?_⟩
    rw [finish_of_nil rfl] at hends
    obtain ⟨-, rfl, rfl⟩ := hv.is_eof heof
    exact absurd rfl (hspace hends.2).1

/-! ## Queries and fragments -/

theorem BehindPath.withQuery {path : List Bytes} {query : Bytes} (h : BehindPath url path)
    (hquery : ∀ b ∈ query, keeps (queryEncodeSet url.scheme) b = true) :
    BehindPath { url with query := query } path :=
  { scheme := h.scheme, special := h.special, userinfo := h.userinfo, host := h.host, noHost := h.noHost
    bare := fun hnil => ⟨(h.bare hnil).username, (h.bare hnil).password, (h.bare hnil).port⟩
    file := fun hfile => ⟨(h.file hfile).username, (h.file hfile).password, (h.file hfile).port⟩
    port := h.port
    query := hquery
    fragment := h.fragment
    opaqueText := h.opaqueText
    segments := h.segments
    needed := h.needed
    emptyFirst := h.emptyFirst }

theorem BehindPath.withFragment {path : List Bytes} {fragment : Bytes} (h : BehindPath url path)
    (hfragment : ∀ b ∈ fragment, keeps fragmentPercentEncodeSet b = true) :
    BehindPath { url with fragment := fragment } path :=
  { scheme := h.scheme, special := h.special, userinfo := h.userinfo, host := h.host, noHost := h.noHost
    bare := fun hnil => ⟨(h.bare hnil).username, (h.bare hnil).password, (h.bare hnil).port⟩
    file := fun hfile => ⟨(h.file hfile).username, (h.file hfile).password, (h.file hfile).port⟩
    port := h.port
    query := h.query
    fragment := hfragment
    opaqueText := h.opaqueText
    segments := h.segments
    needed := h.needed
    emptyFirst := h.emptyFirst }

/-- At the end a space at the end of an opaque path is followed by one character. -/
theorem BehindPath.final (h : BehindPath url ctx.path)
    (hspace : EndsInSpace url → ¬FragmentOnly base input → (serializeQuery url ++ serializeFragment url).length = 1) :
    Final base input (finish url ctx) := by
  refine ⟨h.toPathPart.wellFormed h.toFront h.toRear, fun hends hfragment => ?_⟩
  cases hopaquePath : url.flags.opaquePath with
  | true =>
      have hfinish : finish url ctx = url := finish_of_nil (h.opaqueText hopaquePath).1
      rw [hfinish] at hends ⊢
      exact hspace hends hfragment
  | false =>
      have hwell := h.toPathPart.wellFormed h.toFront h.toRear
      exact (final_of_list hwell hopaquePath).2 hends hfragment

theorem queryState_leads (h : Inv base input .query url ctx before (unit ++ rest)) (hv : v.Shows unit rest)
    (hrun : queryState v url ctx = .ok turn) : turn.Leads (Inv base input) (Final base input) before unit rest v.isEof := by
  obtain ⟨hbehind, hflag, hspace⟩ := h
  rw [queryState] at hrun
  split at hrun
  · rename_i hend
    cases hencode : percentEncodeSet (queryEncodeSet url.scheme) ctx.buffer with
    | error e =>
        simp only [queryEncodeSet] at hencode
        simp only [hencode] at hrun
        cases hrun
    | ok encoded =>
        have hkeeps := keeps_encoded (queryEncodeSet_mem url.scheme) hencode
        have hquery := hbehind.withQuery (List.forall_mem_append.2 ⟨hbehind.query, hkeeps⟩)
        -- at the end of an opaque path with a space there is nothing to be encoded
        have hnothing (hends : EndsInSpace url) : encoded = [] ∧ unit ++ rest = [] := by
          obtain ⟨hrest, hbuffer, -⟩ := hspace hends
          rw [hbuffer, percentEncodeSet_nil] at hencode
          cases hencode
          exact ⟨rfl, hrest⟩
        simp only [queryEncodeSet] at hencode
        simp only [hencode] at hrun
        cases hrun
        split
        · rename_i hc
          refine hv.keep (by rw [hc]; decide) ⟨hquery.beginFragment, rfl, fun hends _ => ?_⟩
          have hunit : unit = [0x23] := hv.unit_eq (b := 0x23) hc (by decide) (by decide)
          rw [hunit] at hnothing
          cases (hnothing hends).2
        · rename_i hc
          have heof := hend.resolve_left hc
          refine View.Shows.keep_or_end (fun h => Bool.noConfusion (heof.symm.trans h)) fun _ => hquery.final ?_
          intro hends _
          obtain ⟨-, -, hnil, hfragment⟩ := hspace hends
          simp only [serializeQuery, serializeFragment, UrlRecord.hasQuery, UrlRecord.hasFragment, hflag, hfragment, hnil,
            (hnothing hends).1]
          rfl
  · rename_i hend
    rw [not_or, Bool.not_eq_true] at hend
    cases hrun
    refine View.Shows.keep_or_end (fun _ => ⟨hbehind, hflag, fun hends => ?_⟩) fun h =>
      Bool.noConfusion (hend.2.symm.trans h)
    have hunit := (List.append_eq_nil_iff.1 (hspace hends).1).1
    rw [(hv.not_eof hend.2).1] at hunit
    exact absurd hunit (utf8Encode_ne_nil _)

theorem fragmentState_leads (h : Inv base input .fragment url ctx before (unit ++ rest)) (hv : v.Shows unit rest)
    (hrun : fragmentState v url ctx = .ok turn) : turn.Leads (Inv base input) (Final base input) before unit rest v.isEof := by
  obtain ⟨hbehind, hflag, hspace⟩ := h
  rw [fragmentState] at hrun
  split at hrun
  · rename_i heof
    rw [Bool.not_eq_true'] at heof
    cases hencode : percentEncodeSet fragmentPercentEncodeSet v.encodedCodepoint with
    | error e => rw [hencode] at hrun; cases hrun
    | ok encoded =>
        rw [hencode] at hrun
        cases hrun
        have hkeeps := keeps_encoded (by decide) hencode
        refine View.Shows.keep_or_end (fun _ => ?_) fun h => Bool.noConfusion (heof.symm.trans h)
        refine ⟨hbehind.withFragment (List.forall_mem_append.2 ⟨hbehind.fragment, hkeeps⟩), hflag, fun hends hnot => ?_⟩
        have hunit := (List.append_eq_nil_iff.1 (hspace hends hnot).1).1
        rw [(hv.not_eof heof).1] at hunit
        exact absurd hunit (utf8Encode_ne_nil _)
  · rename_i heof
    rw [Bool.not_eq_true, Bool.not_eq_false'] at heof
    cases hrun
    refine View.Shows.keep_or_end (fun h => Bool.noConfusion (heof.symm.trans h)) fun _ => hbehind.final ?_
    intro hends hnot
    obtain ⟨-, hnil, hquery⟩ := hspace hends hnot
    simp only [serializeQuery, serializeFragment, UrlRecord.hasQuery, UrlRecord.hasFragment, hflag, hquery, hnil]
    rfl

/-! ## The whole parser -/

/-- Every state keeps the invariant. -/
theorem inv_kept (hbase : ∀ b, base = some b → b.WellFormed) (hlast : input.getLast? ≠ some 0x20) :
    Invariant.Kept base input (Inv base input) (Final base input) := by
  intro state url ctx before unit rest v turn hinput h hv hrun
  cases state with
  | schemeStart => exact schemeStartState_leads h hv hrun
  | scheme => exact schemeState_leads h hv hrun
  | noScheme => exact noSchemeState_leads hbase hinput h hv hrun
  | specialRelativeOrAuthority => exact specialRelativeOrAuthorityState_leads hbase h hv hrun
  | pathOrAuthority => exact pathOrAuthorityState_leads h hv hrun
  | relative => exact relativeState_leads hbase h hv hrun
  | relativeSlash => exact relativeSlashState_leads hbase h hv hrun
  | specialAuthoritySlashes => exact specialAuthoritySlashesState_leads h hv hrun
  | specialAuthorityIgnoreSlashes => exact specialAuthorityIgnoreSlashesState_leads h hv hrun
  | authority => exact authorityState_leads h hv hrun
  | host => exact hostState_leads h hv hrun
  | port => exact portState_leads h hv hrun
  | file => exact fileState_leads hbase h hv hrun
  | fileSlash => exact fileSlashState_leads hbase h hv hrun
  | fileHost => exact fileHostState_leads h hrun
  | pathStart => exact pathStartState_leads h hv hrun
  | path => exact pathState_leads h hv hrun
  | opaquePath => exact opaquePathState_leads hinput hlast h hv hrun
  | query => exact queryState_leads h hv hrun
  | fragment => exact fragmentState_leads h hv hrun

end Rad.Url
