import Rad.Url.Lemmas.Paths

/-!
# Records that the parser gives, and their paths
-/

namespace Rad.Url

variable {base : Option UrlRecord} {input : Bytes} {url : UrlRecord}

/-! ## Well-formed records -/

/-- The text that is read does not end with a space. -/
theorem ownedInput_getLast (input : Bytes) : (ownedInput input).getLast? ≠ some 0x20 := by
  rw [ownedInput, removeTabsAndNewlines, removeLeadingAndTrailingC0AndSpace]
  generalize input.dropWhile isC0OrSpace = text
  rcases List.eq_nil_or_concat (text.rdropWhile isC0OrSpace) with hnil | ⟨front, b, htext⟩
  · rw [hnil]
    nofun
  · rw [List.concat_eq_append] at htext
    have hne : text.rdropWhile isC0OrSpace ≠ [] := by
      rw [htext]
      exact List.append_ne_nil_of_right_ne_nil _ (List.cons_ne_nil _ _)
    have hlast : ¬isC0OrSpace b = true := by simpa [htext] using List.rdropWhile_last_not isC0OrSpace text hne
    have hkeeps : isAsciiTabOrNewline b = false := by
      grind [isC0OrSpace, isAsciiTabOrNewline]
    rw [htext, List.filter_append, List.filter_cons, hkeeps]
    simp only [Bool.not_false, if_true, List.filter_nil, List.getLast?_append, List.getLast?_singleton]
    intro hspace
    cases hspace
    exact hlast rfl

theorem parses_final (hbase : ∀ b, base = some b → b.WellFormed) (h : Parses base input (.ok url)) :
    Final base (ownedInput input) url :=
  h.holds (inv_kept hbase (ownedInput_getLast input)) ⟨rfl, rfl, rfl⟩

/-- A record that the parser gives is well-formed. -/
theorem Parsed.wellFormed (h : Parsed url) : url.WellFormed := by
  induction h with
  | absolute h => exact (parses_final (fun _ hb => by cases hb) h).1
  | reference _ h ih => exact (parses_final (fun b hb => by cases hb; exact ih) h).1

theorem parses_wellFormed (hbase : ∀ b, base = some b → Parsed b) (h : Parses base input (.ok url)) :
    url.WellFormed :=
  (parses_final (fun b hb => (hbase b hb).wellFormed) h).1

/-! ## Segments -/

/-- A dot or two dots, each of them also as an escape. -/
def dotSegments : List Bytes := [ascii ".", ascii "%2e", ascii "..", ascii ".%2e", ascii "%2e.", ascii "%2e%2e"]

/-- A segment that stands for the same place or the one above it. -/
def IsDotSegment (segment : Bytes) : Prop := toLower segment ∈ dotSegments

instance (segment : Bytes) : Decidable (IsDotSegment segment) := inferInstanceAs (Decidable (_ ∈ dotSegments))

theorem eq_dots_of_toLower {segment : Bytes} {n : Nat} (h : toLower segment = List.replicate n 0x2e) :
    segment = List.replicate n 0x2e := by
  rw [List.eq_replicate_iff] at h ⊢
  rw [toLower, List.length_map] at h
  refine ⟨h.1, fun b hb => ?_⟩
  have hdot := h.2 _ (List.mem_map_of_mem hb)
  grind [tolowerCh]

example : IsDotSegment (ascii ".%2E") ∧ ¬IsDotSegment (ascii "...") := by decide +kernel

/-- The path state takes each of them for one. -/
theorem isDotPathSegment {segment : Bytes} (h : IsDotSegment segment) :
    isSingleDotPathSegment segment = true ∨ isDoubleDotPathSegment segment = true := by
  simp only [IsDotSegment, dotSegments, List.mem_cons, List.not_mem_nil, or_false] at h
  rw [isSingleDotPathSegment, isDoubleDotPathSegment]
  simp only [Bool.or_eq_true, beq_iff_eq, iequal_iff]
  have hone : toLower segment = ascii "." → segment = ascii "." := fun h => eq_dots_of_toLower (n := 1) h
  have htwo : toLower segment = ascii ".." → segment = ascii ".." := fun h => eq_dots_of_toLower (n := 2) h
  rcases h with h | h | h | h | h | h
  · exact .inl (.inl (hone h))
  · exact .inl (.inr (h.trans (by decide)))
  · exact .inr (.inl (.inl (.inl (htwo h))))
  · exact .inr (.inl (.inl (.inr (h.trans (by decide)))))
  · exact .inr (.inl (.inr (h.trans (by decide))))
  · exact .inr (.inr (h.trans (by decide)))

theorem IsPath.noDots {scheme : Bytes} {path : List Bytes} (h : IsPath scheme path) :
    ∀ segment ∈ (urlPathSerializer path).splitOn 0x2f, ¬IsDotSegment segment := by
  have hsplit := splitOn_serializer (fun segment hsegment => (h.segments segment hsegment).noSlash) []
    (List.not_mem_nil (a := (0x2f : UInt8)))
  rw [List.nil_append] at hsplit
  rw [hsplit, List.forall_mem_cons]
  refine ⟨by decide, fun segment hsegment hdot => ?_⟩
  have hs := h.segments segment hsegment
  rcases isDotPathSegment hdot with hsingle | hdouble
  · rw [hs.notSingleDot] at hsingle
    cases hsingle
  · rw [hs.notDoubleDot] at hdouble
    cases hdouble

/-! ## Drive letters -/

/-- The path begins with the drive. -/
def BeginsWith (drive : Bytes) : Invariant := fun state url ctx _ _ =>
  (state = .path ∨ state = .query ∨ state = .fragment) ∧ url.scheme = ascii "file" ∧ url.path = [] ∧
    ctx.path.head? = some drive

theorem shortenUrlPath_head {drive : Bytes} {path : List Bytes} (hdrive : isWindowsNormalizedDriveLetter drive = true)
    (h : path.head? = some drive) : (shortenUrlPath (ascii "file") path).head? = some drive := by
  rw [shortenUrlPath]
  split
  · exact h
  · rename_i hlong
    cases path with
    | nil => cases h
    | cons first path =>
        cases path with
        | nil =>
            cases h
            exact absurd ⟨rfl, hdrive, rfl⟩ hlong
        | cons => exact h

theorem head?_append_of_head? {drive : Bytes} {path : List Bytes} (h : path.head? = some drive) (more : List Bytes) :
    (path ++ more).head? = some drive := by rw [List.head?_append, h, Option.some_or]

/-- No segment that ends removes the drive, two dots included. -/
theorem endSegment_head {drive : Bytes} {v : View} {ctx : UrlParseContext} (hfile : url.scheme = ascii "file")
    (hdrive : isWindowsNormalizedDriveLetter drive = true) (h : ctx.path.head? = some drive) :
    (endSegment v url ctx).head? = some drive := by
  rw [endSegment, hfile]
  split
  · split
    · exact head?_append_of_head? (shortenUrlPath_head hdrive h) _
    · exact shortenUrlPath_head hdrive h
  split
  · exact head?_append_of_head? h _
  split
  · exact head?_append_of_head? h _
  · exact h

theorem beginsWith_kept {drive : Bytes} (hdrive : isWindowsNormalizedDriveLetter drive = true) (text : Bytes) :
    Invariant.Kept base text (BeginsWith drive) fun url => ∃ more, url.path = urlPathSerializer (drive :: more) := by
  intro state url ctx before unit rest v turn _ ⟨hstate, hfile, hpath, hhead⟩ hv hrun
  -- in each of the states the drive stays, and at the end it is written
  have hkeep {state' : ParseState} {url' : UrlRecord} {ctx' : UrlParseContext}
      (hstate' : state' = .path ∨ state' = .query ∨ state' = .fragment) (hfile' : url'.scheme = ascii "file")
      (hpath' : url'.path = []) (hhead' : ctx'.path.head? = some drive) :
      Turn.Leads (BeginsWith drive) (fun url => ∃ more, url.path = urlPathSerializer (drive :: more)) before unit rest
        v.isEof ⟨state', url', ctx', .keep⟩ := by
    refine View.Shows.keep_or_end (fun _ => ⟨hstate', hfile', hpath', hhead'⟩) fun _ => ?_
    cases hctx : ctx'.path with
    | nil => rw [hctx] at hhead'; cases hhead'
    | cons segment more =>
        rw [hctx] at hhead'
        cases hhead'
        refine ⟨more, ?_⟩
        rw [finish, hctx, if_pos ⟨hpath', List.cons_ne_nil _ _⟩]
  rcases hstate with rfl | rfl | rfl
  · simp only [runState, pathState] at hrun
    split at hrun
    · have hend : (endSegment v url ctx).head? = some drive := endSegment_head hfile hdrive hhead
      split at hrun
      · cases hrun
        exact hkeep (.inr (.inl rfl)) hfile hpath hend
      split at hrun
      · cases hrun
        exact hkeep (.inr (.inr rfl)) hfile hpath hend
      · cases hrun
        exact hkeep (.inl rfl) hfile hpath hend
    · cases hencode : percentEncodeSet pathPercentEncodeSet v.encodedCodepoint with
      | error e => rw [hencode] at hrun; cases hrun
      | ok encoded =>
          rw [hencode] at hrun
          cases hrun
          exact hkeep (.inl rfl) hfile hpath hhead
  · simp only [runState, queryState] at hrun
    split at hrun
    · generalize percentEncodeSet _ _ = encoded at hrun
      cases encoded with
      | error e => cases hrun
      | ok encoded =>
          cases hrun
          split
          · exact hkeep (.inr (.inr rfl)) hfile hpath hhead
          · exact hkeep (.inr (.inl rfl)) hfile hpath hhead
    · cases hrun
      exact hkeep (.inr (.inl rfl)) hfile hpath hhead
  · simp only [runState, fragmentState] at hrun
    split at hrun
    · cases hencode : percentEncodeSet fragmentPercentEncodeSet v.encodedCodepoint with
      | error e => rw [hencode] at hrun; cases hrun
      | ok encoded =>
          rw [hencode] at hrun
          cases hrun
          exact hkeep (.inr (.inr rfl)) hfile hpath hhead
    · cases hrun
      exact hkeep (.inr (.inr rfl)) hfile hpath hhead

/-- There are segments in the states from the path on only. -/
theorem Inv.beginsWith {s : Config} {drive before rest : Bytes}
    (h : Inv base (ownedInput input) s.state s.url s.ctx before rest) (hfile : s.url.scheme = ascii "file")
    (hhead : s.ctx.path.head? = some drive) : BeginsWith drive s.state s.url s.ctx before rest := by
  have hnil (hctx : s.ctx.path = []) : False := by
    rw [hctx] at hhead
    cases hhead
  have hctx (hctx : s.ctx = {}) : False := hnil (by rw [hctx])
  have hbehind (h : BehindPath s.url s.ctx.path) : s.url.path = [] := by
    have hlist : s.url.flags.opaquePath = false := by
      by_contra hopaquePath
      rw [Bool.not_eq_false] at hopaquePath
      have hspecial := (h.opaqueText hopaquePath).2.2.1
      rw [hfile, isSpecialScheme_file] at hspecial
      cases hspecial
    exact (h.segments hlist).1
  cases hstate : s.state with
  | path =>
      rw [hstate] at h
      exact ⟨.inl rfl, hfile, h.1.noPath, hhead⟩
  | query =>
      rw [hstate] at h
      exact ⟨.inr (.inl rfl), hfile, hbehind h.1, hhead⟩
  | fragment =>
      rw [hstate] at h
      exact ⟨.inr (.inr rfl), hfile, hbehind h.1, hhead⟩
  | schemeStart | noScheme => rw [hstate] at h; exact (hctx h.2.1).elim
  | scheme =>
      rw [hstate] at h
      obtain ⟨-, buffer, hbuffer, -⟩ := h
      exact (hnil (by rw [hbuffer])).elim
  | specialRelativeOrAuthority | pathOrAuthority | relative | relativeSlash | specialAuthoritySlashes
  | specialAuthorityIgnoreSlashes | file | fileSlash | opaquePath => rw [hstate] at h; exact (hctx h.1).elim
  | authority => rw [hstate] at h; exact (hnil h.1.path).elim
  | host => rw [hstate] at h; exact (hnil h.1.path).elim
  | port => rw [hstate] at h; exact (hnil h.2.1).elim
  | pathStart => rw [hstate] at h; exact (hnil h.2.1).elim
  | fileHost =>
      rw [hstate] at h
      obtain ⟨⟨buffer, hbuffer⟩, -⟩ := h
      exact (hnil (by rw [hbuffer])).elim

/-- No dot segment is left in a path, and a drive that is the only segment of a file stays. -/
theorem no_dot_segments (hbase : ∀ b, base = some b → Parsed b) (h : Parses base input (.ok url)) :
    (url.isOpaquePath = false →
      (url.path = [] ∨ url.path.head? = some 0x2f) ∧ ∀ segment ∈ url.path.splitOn 0x2f, ¬IsDotSegment segment) ∧
    ∀ s drive, Lib.Visits (pass base) (.initial input) s → s.url.scheme = ascii "file" → s.ctx.path = [drive] →
      isWindowsNormalizedDriveLetter drive = true →
      (∀ t, Lib.Visits (pass base) s t → t.ctx.path.head? = some drive) ∧
        ∃ more, url.path = urlPathSerializer (drive :: more) := by
  constructor
  · intro hlist
    obtain ⟨path, hpath, htext, -⟩ := (parses_wellFormed hbase h).segments hlist
    rw [htext]
    refine ⟨?_, hpath.noDots⟩
    cases path with
    | nil => exact .inl rfl
    | cons segment path => exact .inr rfl
  · intro s drive hvisits hfile hctx hdrive
    have hkept := inv_kept (fun b hb => (hbase b hb).wellFormed) (ownedInput_getLast input)
    obtain ⟨before, rest, hinput, hat, hinv⟩ := visits_holds hkept hvisits
      ⟨[], _, rfl, UrlPointer.at_ofInput _, rfl, rfl, rfl⟩
    have hbegins : s.Holds (ownedInput input) (BeginsWith drive) :=
      ⟨before, rest, hinput, hat, Inv.beginsWith hinv hfile (by rw [hctx]; rfl)⟩
    have hdriveKept : Invariant.Kept base (ownedInput input) (BeginsWith drive) _ := beginsWith_kept hdrive _
    refine ⟨fun t ht => ?_, ?_⟩
    · obtain ⟨_, _, -, -, hbegins'⟩ := visits_holds hdriveKept ht hbegins
      exact hbegins'.2.2.2
    · obtain ⟨t, ht, hdone⟩ := (hvisits.returns_of h).exists_last
      rcases pass_holds hdriveKept (visits_holds hdriveKept ht hbegins) with ⟨e, herror⟩ | ⟨u, hnext, -⟩ | ⟨url', hok, hmore⟩
      · rw [herror] at hdone
        cases hdone
      · rw [hnext] at hdone
        cases hdone
      · rw [hok] at hdone
        cases hdone
        exact hmore

/-- The drive of a path that goes above it. -/
theorem no_dot_segments_drive :
    ∃ url, Parses none (ascii "file:///C:/../x") (.ok url) ∧ url.path = ascii "/C:/x" ∧
      (∀ segment ∈ url.path.splitOn 0x2f, ¬IsDotSegment segment) ∧
        ∃ more, url.path = urlPathSerializer (ascii "C:" :: more) := by
  have hrun : (Lib.runLoop (pass none) 40 (.initial (ascii "file:///C:/../x"))).map
      (fun r => r.toOption.map fun url => (url.path, url.isOpaquePath)) = some (some (ascii "/C:/x", false)) := by
    decide +kernel
  obtain ⟨r, hr, hpath⟩ := Lib.returns_of_map_runLoop hrun
  cases r with
  | error e => cases hpath
  | ok url =>
      simp only [Except.toOption, Option.map_some, Option.some.injEq, Prod.mk.injEq] at hpath
      obtain ⟨hdots, hdrive⟩ := no_dot_segments (fun _ hb => by cases hb) hr
      -- a state in which the drive has been read
      obtain ⟨s, hs, hfile, hctx⟩ : ∃ s ∈ Lib.visited (pass none) 40 (.initial (ascii "file:///C:/../x")),
          s.url.scheme = ascii "file" ∧ s.ctx.path = [ascii "C:"] := by decide +kernel
      have hmore := (hdrive s (ascii "C:") (Lib.visits_of_mem_visited hs) hfile hctx (by decide)).2
      exact ⟨url, hr, hpath.1, (hdots hpath.2).2, hmore⟩

end Rad.Url
