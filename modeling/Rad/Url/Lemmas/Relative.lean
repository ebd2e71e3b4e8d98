import Rad.Url.Lemmas.Schemes

/-!
# The states that read the base keep the invariant
-/

namespace Rad.Url

variable {base : Option UrlRecord} {input : Bytes} {v : View} {url b : UrlRecord} {ctx : UrlParseContext}
  {before unit rest : Bytes} {turn : Turn} {path : List Bytes}

/-! ## Records with parts of a base -/

/-- The path of a base with segments is split into them. -/
theorem UrlRecord.WellFormed.split (h : b.WellFormed) (hlist : b.flags.opaquePath = false) :
    IsPath b.scheme (splitUrlPath b.path) ∧ (b.NeedsPath → splitUrlPath b.path ≠ []) := by
  obtain ⟨path, hpath, htext, hneeds, -⟩ := h.segments hlist
  rw [htext, hpath.split]
  exact ⟨hpath, hneeds⟩

theorem UrlRecord.WellFormed.rear (h : b.WellFormed) : b.Rear := h.toRear

/-- The query begins behind a path. -/
theorem InPath.beginQuery (h : InPath url path) (hneeds : url.NeedsPath → path ≠ []) :
    BehindPath (beginQuery url) path :=
  { scheme := h.scheme, special := h.special, userinfo := h.userinfo, host := h.host, noHost := h.noHost
    bare := fun hnil => ⟨(h.bare hnil).username, (h.bare hnil).password, (h.bare hnil).port⟩
    file := fun hfile => ⟨(h.file hfile).username, (h.file hfile).password, (h.file hfile).port⟩
    port := h.port
    query := nofun
    fragment := h.fragment
    opaqueText := fun hopaquePath => Bool.noConfusion (h.list.symm.trans hopaquePath)
    segments := fun _ => ⟨h.noPath, h.isPath⟩
    needed := fun _ => hneeds
    emptyFirst := h.emptyFirst }

/-- The fragment begins behind a path or a query. -/
theorem BehindPath.beginFragment (h : BehindPath url path) : BehindPath (beginFragment url) path :=
  { scheme := h.scheme, special := h.special, userinfo := h.userinfo, host := h.host, noHost := h.noHost
    bare := fun hnil => ⟨(h.bare hnil).username, (h.bare hnil).password, (h.bare hnil).port⟩
    file := fun hfile => ⟨(h.file hfile).username, (h.file hfile).password, (h.file hfile).port⟩
    port := h.port
    query := h.query
    fragment := nofun
    opaqueText := h.opaqueText
    segments := h.segments
    needed := h.needed
    emptyFirst := h.emptyFirst }

theorem InPath.behind (h : InPath url path) (hneeds : url.NeedsPath → path ≠ []) : BehindPath url path :=
  { toFront := h.toFront
    toRear := h.toRear
    opaqueText := fun hopaquePath => Bool.noConfusion (h.list.symm.trans hopaquePath)
    segments := fun _ => ⟨h.noPath, h.isPath⟩
    needed := fun _ => hneeds
    emptyFirst := h.emptyFirst }

theorem InPath.dropQuery (h : InPath url path) : InPath (dropQuery url) path :=
  { scheme := h.scheme, special := h.special, userinfo := h.userinfo, host := h.host, noHost := h.noHost
    bare := fun hnil => ⟨(h.bare hnil).username, (h.bare hnil).password, (h.bare hnil).port⟩
    file := fun hfile => ⟨(h.file hfile).username, (h.file hfile).password, (h.file hfile).port⟩
    port := h.port
    query := nofun
    fragment := h.fragment
    noPath := h.noPath
    list := h.list
    emptyFirst := h.emptyFirst
    isPath := h.isPath }

theorem InPath.withPath {path' : List Bytes} (h : InPath url path) (hpath : IsPath url.scheme path') : InPath url path' :=
  { h with isPath := hpath }

/-- There is no opaque path at the end. -/
theorem final_of_list (hwell : (finish url ctx).WellFormed) (hlist : url.flags.opaquePath = false) :
    Final base input (finish url ctx) := by
  refine ⟨hwell, fun hspace => ?_⟩
  have hopaquePath := hspace.1
  have hflag : (finish url ctx).flags.opaquePath = url.flags.opaquePath := by
    rw [finish]
    split <;> rfl
  rw [hflag, hlist] at hopaquePath
  cases hopaquePath

theorem InPath.final (h : InPath url ctx.path) (hneeds : url.NeedsPath → ctx.path ≠ []) :
    Final base input (finish url ctx) :=
  final_of_list ((h.behind hneeds).toPathPart.wellFormed h.toFront h.toRear) h.list

/-- The query begins with no space in front of it. -/
theorem InPath.inv_query (h : InPath url ctx.path) (hneeds : url.NeedsPath → ctx.path ≠ []) :
    Inv base input .query (Url.beginQuery url) ctx before rest :=
  ⟨h.beginQuery hneeds, rfl, fun hspace => Bool.noConfusion (h.list.symm.trans hspace.1)⟩

theorem InPath.inv_fragment (h : InPath url ctx.path) (hneeds : url.NeedsPath → ctx.path ≠ []) :
    Inv base input .fragment (beginFragment url) ctx before rest :=
  ⟨(h.behind hneeds).beginFragment, rfl, fun hspace => Bool.noConfusion (h.list.symm.trans hspace.1)⟩

/-! ## Relative references -/

/-- A base without its path and its fragment. -/
def ofBase (b : UrlRecord) : UrlRecord :=
  { b with
    flags := { b.flags with fragment := false, emptyFirstPathSegment := false }
    path := []
    fragment := [] }

theorem inPath_ofBase (hwell : b.WellFormed) (hlist : b.flags.opaquePath = false) :
    InPath (ofBase b) (splitUrlPath b.path) :=
  { scheme := hwell.scheme, special := hwell.special, userinfo := hwell.userinfo, host := hwell.host
    noHost := hwell.noHost
    bare := fun hnil => ⟨(hwell.bare hnil).username, (hwell.bare hnil).password, (hwell.bare hnil).port⟩
    file := fun hfile => ⟨(hwell.file hfile).username, (hwell.file hfile).password, (hwell.file hfile).port⟩
    port := hwell.port
    query := hwell.query
    fragment := nofun
    noPath := rfl
    list := hlist
    emptyFirst := rfl
    isPath := (hwell.split hlist).1 }

/-- What the relative state makes of the base. -/
def relativeParts (v : View) (b : UrlRecord) (ctx : UrlParseContext) : Turn :=
  let path := splitUrlPath b.path
  if v.c = 0x3f then ⟨.query, beginQuery (ofBase b), { ctx with path := path }, .keep⟩
  else if v.c = 0x23 then ⟨.fragment, beginFragment (ofBase b), { ctx with path := path }, .keep⟩
  else if !v.isEof then ⟨.path, dropQuery (ofBase b), { ctx with path := shortenUrlPath b.scheme path }, .decrease⟩
  else ⟨.relative, ofBase b, { ctx with path := path }, .keep⟩

theorem relativeState_eq (hwell : b.WellFormed) (hurl : url = blank [] ∨ url = blank b.scheme) :
    relativeState v (some b) url ctx =
      .ok (if v.c = 0x2f ∨ (isSpecialScheme b.scheme = true ∧ v.c = 0x5c) then
        ⟨.relativeSlash, blank b.scheme, ctx, .keep⟩ else relativeParts v b ctx) := by
  have hspecial : (url.flags.specialScheme || b.flags.specialScheme) = isSpecialScheme b.scheme := by
    rw [hwell.special]
    rcases hurl with rfl | rfl
    · rw [show (blank []).flags.specialScheme = false from isSpecialScheme_nil, Bool.false_or]
    · exact Bool.or_self _
  have hflags : url.flags = { specialScheme := url.flags.specialScheme } := by rcases hurl with rfl | rfl <;> rfl
  have hurl' : url = { scheme := url.scheme, flags := url.flags } := by rcases hurl with rfl | rfl <;> rfl
  have hbase : ({ specialScheme := isSpecialScheme b.scheme } : UrlRecordFlags).clearHost.union
      { b.flags with fragment := false, emptyFirstPathSegment := false } =
        { b.flags with fragment := false, emptyFirstPathSegment := false } := by
    simp only [UrlRecordFlags.union, UrlRecordFlags.clearHost, Bool.false_or, hwell.special, Bool.or_self]
  rw [hurl', hflags]
  simp only [relativeState, hspecial, UrlRecord.isSpecial, hbase, relativeParts, ofBase, blank, credentialsOnly,
    Bool.and_eq_true, decide_eq_true_eq]
  by_cases hslash : v.c = 0x2f
  · rw [if_pos hslash, if_pos (.inl hslash)]
  rw [if_neg hslash]
  by_cases hback : isSpecialScheme b.scheme = true ∧ v.c = 0x5c
  · rw [if_pos hback, if_pos (.inr hback)]
  rw [if_neg hback, if_neg (not_or.2 ⟨hslash, hback⟩)]
  split
  · rfl
  split
  · rfl
  split <;> rfl

theorem relativeState_leads (hbase : ∀ b, base = some b → b.WellFormed)
    (h : Inv base input .relative url ctx before (unit ++ rest)) (hv : v.Shows unit rest)
    (hrun : relativeState v base url ctx = .ok turn) : turn.Leads (Inv base input) (Final base input) before unit rest v.isEof := by
  obtain ⟨rfl, b, ⟨rfl, hlist, hfile⟩, hurl⟩ := h
  have hwell := hbase b rfl
  have hpath := inPath_ofBase hwell hlist
  have hneeds := (hwell.split hlist).2
  rw [relativeState_eq hwell hurl] at hrun
  cases hrun
  split
  · rename_i hc
    refine hv.keep (fun hzero => ?_) ⟨rfl, b, ⟨rfl, hlist, hfile⟩, rfl⟩
    rw [hzero] at hc
    exact hc.elim (absurd · (by decide)) fun h => absurd h.2 (by decide)
  rw [relativeParts]
  split
  · rename_i hc
    exact hv.keep (by rw [hc]; decide) (hpath.inv_query hneeds)
  split
  · rename_i hc
    exact hv.keep (by rw [hc]; decide) (hpath.inv_fragment hneeds)
  split
  · exact ⟨(hpath.withPath (hpath.isPath.shorten _)).dropQuery, nofun⟩
  · rename_i heof
    refine View.Shows.keep_or_end (fun h => ?_) fun _ => hpath.final hneeds
    rw [h] at heof
    exact absurd rfl heof

theorem relativeSlashState_leads (hbase : ∀ b, base = some b → b.WellFormed)
    (h : Inv base input .relativeSlash url ctx before (unit ++ rest)) (hv : v.Shows unit rest)
    (hrun : relativeSlashState v base url ctx = .ok turn) :
    turn.Leads (Inv base input) (Final base input) before unit rest v.isEof := by
  obtain ⟨rfl, b, ⟨rfl, hlist, hfile⟩, rfl⟩ := h
  have hwell := hbase b rfl
  simp only [relativeSlashState] at hrun
  split at hrun
  · rename_i hc
    cases hrun
    rw [Bool.and_eq_true, Bool.or_eq_true, decide_eq_true_eq, decide_eq_true_eq] at hc
    refine hv.keep (fun hzero => ?_) ⟨rfl, b.scheme, rfl, hwell.scheme, hfile⟩
    rw [hzero] at hc
    exact absurd hc.2 (by decide)
  split at hrun
  · rename_i hc
    cases hrun
    exact hv.keep (by rw [hc]; decide) ⟨inAuthority_blank hwell.scheme hfile, List.nil_suffix, (by simp)⟩
  · cases hrun
    have hflags : (blank b.scheme).flags.union
        { b.flags with opaquePath := false, emptyFirstPathSegment := false, query := false, fragment := false } =
          (dropQuery (ofBase b)).flags := by
      simp only [UrlRecordFlags.union, credentialsOnly, dropQuery, ofBase, Bool.false_or, hwell.special, Bool.or_self,
        hlist]
    rw [hflags]
    exact ⟨((inPath_ofBase hwell hlist).withPath (.nil _)).dropQuery, (by simp)⟩

/-! ## Files -/

theorem front_file {host : Bytes} {flags : UrlRecordFlags} (hhost : IsHost (ascii "file") host) (hflag : flags.host = true)
    (husername : flags.username = false) (hpassword : flags.password = false) (hport : flags.port = false)
    (hspecial : flags.specialScheme = true) (query : Bytes) :
    ({ flags := flags, scheme := ascii "file", host := host, query := query } : UrlRecord).Front where
  scheme := isScheme_file
  special := hspecial.trans isSpecialScheme_file.symm
  userinfo := nofun
  host _ := hhost
  noHost h := Bool.noConfusion (hflag.symm.trans h)
  bare _ := ⟨husername, hpassword, hport⟩
  file _ := ⟨husername, hpassword, hport⟩
  port h := Bool.noConfusion (hport.symm.trans h)

theorem isHost_nil_file : IsHost (ascii "file") [] :=
  ⟨fun h => absurd rfl h, fun _ _ => rfl, fun _ => (List.cons_ne_nil _ _).symm⟩

theorem inPath_fileRecord : InPath fileRecord [] :=
  { toFront := front_file isHost_nil_file rfl rfl rfl rfl rfl []
    query := nofun
    fragment := nofun
    noPath := rfl
    list := rfl
    emptyFirst := rfl
    isPath := .nil _ }

/-- A base of the scheme file has a host and no opaque path. -/
theorem UrlRecord.WellFormed.file_base (h : b.WellFormed) (hfile : b.scheme = ascii "file") :
    b.flags.host = true ∧ b.flags.opaquePath = false ∧ IsHost (ascii "file") b.host := by
  have hhost : b.flags.host = true := by
    by_contra hnot
    rw [Bool.not_eq_true] at hnot
    have hspecial := (h.noHost hnot).1
    rw [hfile, isSpecialScheme_file] at hspecial
    cases hspecial
  refine ⟨hhost, ?_, hfile ▸ h.host hhost⟩
  by_contra hopaquePath
  rw [Bool.not_eq_false] at hopaquePath
  rw [(h.opaqueText hopaquePath).1] at hhost
  cases hhost

/-- The parts of a base of the scheme file that are taken over. -/
def fileOfBase (b : UrlRecord) : UrlRecord :=
  { fileRecord with
    flags := { b.flags with
      host := true
      emptyHost := true
      specialScheme := true
      username := false
      password := false
      port := false
      fragment := false
      emptyFirstPathSegment := false }
    host := b.host
    query := b.query }

theorem inPath_fileOfBase (hwell : b.WellFormed) (hfile : b.scheme = ascii "file") :
    InPath (fileOfBase b) (splitUrlPath b.path) := by
  obtain ⟨-, hlist, hhost⟩ := hwell.file_base hfile
  exact
    { toFront := front_file hhost rfl rfl rfl rfl rfl b.query
      query := fun ch hch => by
        have hquery := hwell.query ch hch
        rwa [hfile] at hquery
      fragment := nofun
      noPath := rfl
      list := hlist
      emptyFirst := rfl
      isPath := by
        have hpath := (hwell.split hlist).1
        rwa [hfile] at hpath }

/-- What the file state makes of the base. -/
def fileParts (v : View) (b : UrlRecord) (ctx : UrlParseContext) : Turn :=
  let path := splitUrlPath b.path
  if v.c = 0x3f then ⟨.query, beginQuery (fileOfBase b), { ctx with path := path }, .keep⟩
  else if v.c = 0x23 then ⟨.fragment, beginFragment (fileOfBase b), { ctx with path := path }, .keep⟩
  else if !v.isEof then
    ⟨.path, dropQuery (fileOfBase b),
      { ctx with
        path := if !startsWithWindowsDriveLetter v.codepointSubstring then shortenUrlPath (ascii "file") path else [] },
      .decrease⟩
  else ⟨.file, fileOfBase b, { ctx with path := path }, .keep⟩

theorem fileState_eq (hurl : url = blank [] ∨ url = blank (ascii "file")) :
    fileState v base url ctx =
      .ok (if v.c = 0x2f ∨ v.c = 0x5c then ⟨.fileSlash, fileRecord, ctx, .keep⟩
        else match base.filter fun b => b.scheme == ascii "file" with
          | some b => fileParts v b ctx
          | none => ⟨.path, fileRecord, ctx, .decrease⟩) := by
  rcases hurl with rfl | rfl
  all_goals
    simp only [fileState, UrlRecord.setHostFlag, UrlRecordFlags.clearHost, credentialsOnly, fileRecord, fileParts,
      fileOfBase, UrlRecordFlags.union, Bool.false_or, Bool.true_or]
    split
    · rfl
    cases base.filter fun b => b.scheme == ascii "file" with
    | none => rfl
    | some b =>
        simp only
        split
        · rfl
        split
        · rfl
        split <;> rfl

theorem filter_eq_some (h : (base.filter fun b => b.scheme == ascii "file") = some b) :
    base = some b ∧ b.scheme = ascii "file" := by
  rw [Option.filter_eq_some_iff, beq_iff_eq] at h
  exact h

theorem fileState_leads (hbase : ∀ b, base = some b → b.WellFormed)
    (h : Inv base input .file url ctx before (unit ++ rest)) (hv : v.Shows unit rest)
    (hrun : fileState v base url ctx = .ok turn) : turn.Leads (Inv base input) (Final base input) before unit rest v.isEof := by
  obtain ⟨rfl, hurl⟩ := h
  rw [fileState_eq hurl] at hrun
  cases hrun
  split
  · rename_i hc
    refine hv.keep (fun hzero => ?_) ⟨rfl, rfl⟩
    rw [hzero] at hc
    exact absurd hc (by decide)
  split
  · rename_i b hfilter
    obtain ⟨rfl, hfile⟩ := filter_eq_some hfilter
    have hwell := hbase b rfl
    have hpath := inPath_fileOfBase hwell hfile
    have hneeds := (hwell.split (hwell.file_base hfile).2.1).2 (.inr (hfile ▸ isSpecialScheme_file))
    rw [fileParts]
    split
    · rename_i hc
      exact hv.keep (by rw [hc]; decide) (hpath.inv_query fun _ => hneeds)
    split
    · rename_i hc
      exact hv.keep (by rw [hc]; decide) (hpath.inv_fragment fun _ => hneeds)
    split
    · refine ⟨(hpath.withPath ?_).dropQuery, nofun⟩
      show IsPath _ (if !startsWithWindowsDriveLetter v.codepointSubstring then _ else _)
      split
      · exact hpath.isPath.shorten _
      · exact .nil _
    · rename_i heof
      refine View.Shows.keep_or_end (fun h => ?_) fun _ => hpath.final fun _ => hneeds
      rw [h] at heof
      exact absurd rfl heof
  · exact ⟨inPath_fileRecord, nofun⟩

/-- The drive of the base is a path of its own. -/
theorem isPath_drive (h : IsPath (ascii "file") path) :
    IsPath (ascii "file") (path.head?.filter isWindowsNormalizedDriveLetter).toList := by
  cases hdrive : path.head?.filter isWindowsNormalizedDriveLetter with
  | none => exact .nil _
  | some segment =>
      obtain ⟨hhead, hnormalized⟩ := Option.filter_eq_some_iff.1 hdrive
      refine ⟨?_, fun _ s hs _ => ?_⟩
      · intro s hs
        rw [Option.toList_some, List.mem_singleton] at hs
        exact hs ▸ h.segments segment (List.mem_of_mem_head? hhead)
      · cases hs
        exact hnormalized

theorem fileSlashState_leads (hbase : ∀ b, base = some b → b.WellFormed)
    (h : Inv base input .fileSlash url ctx before (unit ++ rest)) (hv : v.Shows unit rest)
    (hrun : fileSlashState v base url ctx = .ok turn) :
    turn.Leads (Inv base input) (Final base input) before unit rest v.isEof := by
  obtain ⟨rfl, rfl⟩ := h
  rw [fileSlashState] at hrun
  split at hrun
  · rename_i hc
    cases hrun
    refine hv.keep (fun hzero => ?_) ⟨⟨[], rfl⟩, rfl⟩
    rw [hzero] at hc
    exact absurd hc (by decide)
  split at hrun
  · rename_i b hfilter
    obtain ⟨rfl, hfile⟩ := filter_eq_some hfilter
    have hwell := hbase b rfl
    obtain ⟨-, hlist, hhost⟩ := hwell.file_base hfile
    cases hrun
    have hpath : IsPath (ascii "file") (splitUrlPath b.path) := hfile ▸ (hwell.split hlist).1
    refine ⟨{ inPath_fileRecord with
      toFront := front_file hhost rfl rfl rfl rfl rfl []
      isPath := ?_ }, nofun⟩
    show IsPath (ascii "file") ([] ++ if !startsWithWindowsDriveLetter v.codepointSubstring then _ else _)
    rw [List.nil_append]
    split
    · exact isPath_drive hpath
    · exact .nil _
  · cases hrun
    exact ⟨inPath_fileRecord, nofun⟩

theorem fileHostState_leads (h : Inv base input .fileHost url ctx before (unit ++ rest))
    (hrun : fileHostState v url ctx = .ok turn) : turn.Leads (Inv base input) (Final base input) before unit rest v.isEof := by
  obtain ⟨⟨buffer, rfl⟩, rfl⟩ := h
  rw [fileHostState] at hrun
  split at hrun
  · split at hrun
    · rename_i hdrive
      cases hrun
      obtain ⟨letter, mark, rfl, hmark, hletter⟩ := isWindowsDriveLetter_iff.1 hdrive
      exact ⟨inPath_fileRecord, (isSegment_drive hmark hletter).characters⟩
    split at hrun
    · rename_i hnil
      cases hrun
      exact ⟨inPath_fileRecord, rfl, hnil, rfl⟩
    · rename_i hne
      cases hparse : parseHost buffer (!isSpecialScheme fileRecord.scheme) fileRecord with
      | error e => rw [hparse] at hrun; cases hrun
      | ok url' =>
          rw [hparse] at hrun
          cases hrun
          obtain ⟨host, kind, htext, rfl⟩ := parseHost_ok hparse
          have hhost (host' : Bytes) (hhost : host' = host ∧ host ≠ ascii "localhost" ∨ host' = []) :
              IsHost (ascii "file") host' := by
            rcases hhost with ⟨rfl, hlocal⟩ | rfl
            · exact ⟨fun _ => ⟨buffer, kind, htext⟩, fun _ _ => rfl, fun _ => hlocal⟩
            · exact isHost_nil_file
          have hpath {host' : Bytes} {flags : UrlRecordFlags} (h : IsHost (ascii "file") host') (hflag : flags.host = true)
              (hflags : flags.username = false ∧ flags.password = false ∧ flags.port = false ∧ flags.specialScheme = true ∧
                flags.opaquePath = false ∧ flags.emptyFirstPathSegment = false) :
              InPath { flags := flags, scheme := ascii "file", host := host' } [] :=
            { toFront := front_file h hflag hflags.1 hflags.2.1 hflags.2.2.1 hflags.2.2.2.1 []
              query := nofun
              fragment := nofun
              noPath := rfl
              list := hflags.2.2.2.2.1
              emptyFirst := hflags.2.2.2.2.2
              isPath := .nil _ }
          show Inv base input .pathStart (if _ then _ else _) _ before (unit ++ rest)
          split
          · refine ⟨hpath (hhost [] (.inr rfl)) ?_ ?_, rfl, rfl, ?_⟩
            all_goals simp [fileRecord]
          · rename_i hlocal
            refine ⟨hpath (hhost host (.inl ⟨rfl, hlocal⟩)) ?_ ?_, rfl, rfl, ?_⟩
            all_goals simp [fileRecord]
  · rename_i hc
    cases hrun
    refine View.Shows.keep_or_end (fun _ => ⟨⟨_, rfl⟩, rfl⟩) fun hend => absurd ?_ hc
    rw [hend]
    rfl

end Rad.Url
