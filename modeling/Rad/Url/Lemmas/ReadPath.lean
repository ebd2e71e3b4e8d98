import Rad.Url.Record
import Rad.Url.Lemmas.Reaches

/-!
# The path and what is behind it are read back
-/

namespace Rad.Url

variable {base : Option UrlRecord} {u url : UrlRecord} {ctx : UrlParseContext} {before text rest : Bytes}
  {state : ParseState}

/-! ## Queries and fragments -/

/-- The record with the query and the fragment of another one. -/
def UrlRecord.withRear (url u : UrlRecord) : UrlRecord :=
  let url := if u.hasQuery then { beginQuery url with query := u.query } else url
  if u.hasFragment then { beginFragment url with fragment := u.fragment } else url

/-- What is written behind the path. -/
def rearText (u : UrlRecord) : Bytes := serializeQuery u ++ serializeFragment u

theorem ends_fragment_kept (url : UrlRecord) (ctx : UrlParseContext) (h : ∀ b ∈ text, keeps fragmentPercentEncodeSet b = true) :
    Ends base ⟨.fragment, beginFragment url, ctx, before, text⟩
      (.ok (finish { beginFragment url with fragment := text } ctx)) := by
  have hends : Ends base ⟨.fragment, beginFragment url, ctx, before, text⟩ _ := ends_fragment _ _ _ _
  rw [utf8DecodeAll_ascii fun b hb => keeps_ascii holdsHigh_fragment (h b hb), flatMap_encodeByte_of_keeps h] at hends
  exact hends

theorem queryState_end {v : View} (hend : v.c = 0x23 ∨ v.isEof = true)
    (h : ∀ b ∈ text, keeps (queryEncodeSet url.scheme) b = true) :
    queryState v (beginQuery url) { ctx with buffer := text } =
      .ok (if v.c = 0x23 then
        ⟨.fragment, beginFragment { beginQuery url with query := text }, { ctx with buffer := [] }, .keep⟩
      else ⟨.query, { beginQuery url with query := text }, { ctx with buffer := [] }, .keep⟩) := by
  have hencode := percentEncodeSet_of_keeps (holdsHigh_query url.scheme) h
  rw [queryState, if_pos hend]
  change (percentEncodeSet (queryEncodeSet url.scheme) text).map _ = _
  rw [hencode]
  rfl

theorem queryByte_facts {scheme : Bytes} {b : UInt8} (h : keeps (queryEncodeSet scheme) b = true) : b < 0x80 ∧ b ≠ 0x23 := by
  refine ⟨keeps_ascii (holdsHigh_query scheme) h, ?_⟩
  rintro rfl
  rw [queryEncodeSet] at h
  split at h <;> exact absurd h (by decide)

/-- A query is read up to the fragment or to the end. -/
theorem ends_query (url : UrlRecord) (ctx : UrlParseContext) (hscheme : u.scheme = url.scheme) (hrear : u.Rear) :
    Ends base ⟨.query, beginQuery url, { ctx with buffer := [] }, before, u.query ++ serializeFragment u⟩
      (.ok (finish (if u.hasFragment then
          { beginFragment { beginQuery url with query := u.query } with fragment := u.fragment }
        else { beginQuery url with query := u.query }) { ctx with buffer := [] })) := by
  have hkeeps : ∀ b ∈ u.query, keeps (queryEncodeSet url.scheme) b = true := hscheme ▸ hrear.query
  have hchunk : Reaches base ⟨.query, beginQuery url, { ctx with buffer := [] }, before, u.query ++ serializeFragment u⟩
      ⟨.query, beginQuery url, { ctx with buffer := u.query }, before ++ u.query, serializeFragment u⟩ := by
    refine reaches_chunk ctx [] fun ch hch => ?_
    obtain ⟨hascii, hmark⟩ := queryByte_facts (hkeeps ch hch)
    refine ⟨hascii, fun buffer rest => ?_⟩
    have hc : ¬((asciiView ch rest).c = 0x23 ∨ (asciiView ch rest).isEof = true) := by
      rintro (h | h)
      · exact hmark (UInt8.toNat_inj.1 h)
      · cases h
    rw [runState, queryState, if_neg hc]
    rfl
  refine hchunk.ends ?_
  rw [serializeFragment]
  cases u.hasFragment with
  | true =>
      have hmark : Reaches base ⟨.query, beginQuery url, { ctx with buffer := u.query }, before ++ u.query, 0x23 :: u.fragment⟩
          ⟨.fragment, beginFragment { beginQuery url with query := u.query }, { ctx with buffer := [] },
            before ++ u.query ++ [0x23], u.fragment⟩ :=
        .keep_ascii (by decide) ((queryState_end (.inl rfl) hkeeps).trans rfl)
      exact hmark.ends (ends_fragment_kept _ _ hrear.fragment)
  | false => exact Ends.eof fun _ _ => (queryState_end (.inr rfl) hkeeps).trans rfl

/-- A state that leaves for the query, for the fragment or at the end. -/
theorem ends_rear (ctx' : UrlParseContext) (state' : ParseState) (hscheme : u.scheme = url.scheme) (hrear : u.Rear)
    (hquery : ∀ rest, runState (asciiView 0x3f rest) base url ctx state =
      .ok ⟨.query, beginQuery url, { ctx' with buffer := [] }, .keep⟩)
    (hfragment : ∀ rest, runState (asciiView 0x23 rest) base url ctx state =
      .ok ⟨.fragment, beginFragment url, { ctx' with buffer := [] }, .keep⟩)
    (heof : ∀ unit substring, runState ⟨0, true, unit, [], substring⟩ base url ctx state =
      .ok ⟨state', url, { ctx' with buffer := [] }, .keep⟩) :
    Ends base ⟨state, url, ctx, before, rearText u⟩ (.ok (finish (url.withRear u) { ctx' with buffer := [] })) := by
  rw [rearText, serializeQuery, UrlRecord.withRear]
  cases u.hasQuery with
  | true =>
      have hmark : Reaches base ⟨state, url, ctx, before, 0x3f :: (u.query ++ serializeFragment u)⟩
          ⟨.query, beginQuery url, { ctx' with buffer := [] }, before ++ [0x3f], u.query ++ serializeFragment u⟩ :=
        .keep_ascii (by decide) (hquery _)
      exact hmark.ends (ends_query url ctx' hscheme hrear)
  | false =>
      rw [serializeFragment]
      cases u.hasFragment with
      | true =>
          have hmark : Reaches base ⟨state, url, ctx, before, 0x23 :: u.fragment⟩
              ⟨.fragment, beginFragment url, { ctx' with buffer := [] }, before ++ [0x23], u.fragment⟩ :=
            .keep_ascii (by decide) (hfragment _)
          exact hmark.ends (ends_fragment_kept _ _ hrear.fragment)
      | false => exact Ends.eof heof

/-! ## Segments -/

theorem segmentByte_facts {special : Bool} {b : UInt8} (h : isSegmentByte special b = true) :
    b < 0x80 ∧ keeps pathPercentEncodeSet b = true ∧ b ≠ 0x2f ∧ (special = true → b ≠ 0x5c) ∧ b ≠ 0x3f ∧ b ≠ 0x23 := by
  rw [isSegmentByte, Bool.and_eq_true, Bool.and_eq_true, bne_iff_ne, Bool.not_eq_true'] at h
  obtain ⟨⟨hkeeps, hslash⟩, hback⟩ := h
  refine ⟨keeps_ascii holdsHigh_path hkeeps, hkeeps, hslash, fun hspecial => ?_, ?_, ?_⟩
  · rw [hspecial, Bool.true_and, beq_eq_false_iff_ne] at hback
    exact hback
  · rintro rfl
    exact absurd hkeeps (by decide)
  · rintro rfl
    exact absurd hkeeps (by decide)

theorem reaches_segment (url : UrlRecord) (ctx : UrlParseContext)
    (h : ∀ b ∈ text, isSegmentByte (isSpecialScheme url.scheme) b = true) :
    Reaches base ⟨.path, url, { ctx with buffer := [] }, before, text ++ rest⟩
      ⟨.path, url, { ctx with buffer := text }, before ++ text, rest⟩ := by
  refine reaches_chunk ctx [] fun ch hch => ?_
  obtain ⟨hascii, hkeeps, hslash, hback, hquery, hmark⟩ := segmentByte_facts (h ch hch)
  refine ⟨hascii, fun buffer rest => ?_⟩
  have hne {b : UInt8} (h : ch ≠ b) : (ch.toNat == b.toNat) = false :=
    beq_eq_false_iff_ne.2 fun heq => h (UInt8.toNat_inj.1 heq)
  have hend : (ch.toNat == 0x5c && isSpecialScheme url.scheme) = false := by
    cases hspecial : isSpecialScheme url.scheme with
    | true => rw [Bool.and_true]; exact hne (hback hspecial)
    | false => rw [Bool.and_false]
  have hencode : percentEncodeSet pathPercentEncodeSet [ch] = .ok [ch] :=
    percentEncodeSet_of_keeps holdsHigh_path fun b hb => (List.mem_singleton.1 hb) ▸ hkeeps
  rw [runState, pathState]
  simp only [codepointView, show (ch.toNat == 0x2f) = false from hne hslash, hend,
    show (ch.toNat == 0x3f) = false from hne hquery, show (ch.toNat == 0x23) = false from hne hmark, Bool.or_false,
    Bool.false_eq_true, if_false, hencode, Except.map]

/-- A segment of a path is put behind the ones in front of it. -/
theorem endSegment_of_isPath {path more : List Bytes} {segment : Bytes} (v : View)
    (h : IsPath url.scheme (path ++ segment :: more)) :
    endSegment v url { ctx with path := path, buffer := segment } = path ++ [segment] := by
  have hsegment := h.segments segment (List.mem_append_right _ List.mem_cons_self)
  have hdrive : (if url.scheme = ascii "file" ∧ path = [] ∧ isWindowsDriveLetter segment = true then segment.set 1 0x3a
      else segment) = segment := by
    split
    · rename_i hdrive
      obtain ⟨hfile, rfl, hletter⟩ := hdrive
      have hnormal := h.drive hfile segment rfl hletter
      obtain ⟨letter, mark, rfl, -, -⟩ := isWindowsDriveLetter_iff.1 hletter
      rw [isWindowsNormalizedDriveLetter, Bool.and_eq_true, beq_iff_eq] at hnormal
      rw [hnormal.1]
      rfl
    · rfl
  rw [endSegment]
  simp only [hsegment.notDoubleDot, hsegment.notSingleDot, Bool.false_and, Bool.false_eq_true, if_false, Bool.not_false,
    if_true, hdrive]

/-- The segments are read one after the other. -/
theorem ends_path (path : List Bytes) {more : List Bytes} {segment : Bytes} (ctx : UrlParseContext)
    (hscheme : u.scheme = url.scheme) (hrear : u.Rear) (h : IsPath url.scheme (path ++ segment :: more)) :
    Ends base ⟨.path, url, { ctx with path := path, buffer := [] }, before,
        segment ++ (urlPathSerializer more ++ rearText u)⟩
      (.ok (finish (url.withRear u) { ctx with path := path ++ segment :: more, buffer := [] })) := by
  induction more generalizing path segment before with
  | nil =>
      refine (reaches_segment url { ctx with path := path }
        (h.segments segment (List.mem_append_right _ List.mem_cons_self)).characters).ends ?_
      refine ends_rear { ctx with path := path ++ [segment] } .path hscheme hrear ?_ ?_ ?_
      · intro rest
        rw [runState, pathState, endSegment_of_isPath _ h]
        rfl
      · intro rest
        rw [runState, pathState, endSegment_of_isPath _ h]
        rfl
      · intro unit substring
        rw [runState, pathState, endSegment_of_isPath _ h]
        rfl
  | cons segment' more ih =>
      refine (reaches_segment url { ctx with path := path }
        (h.segments segment (List.mem_append_right _ List.mem_cons_self)).characters).ends ?_
      have hslash : Reaches base
          ⟨.path, url, { ctx with path := path, buffer := segment }, before ++ segment,
            0x2f :: (segment' ++ (urlPathSerializer more ++ rearText u))⟩
          ⟨.path, url, { ctx with path := path ++ [segment], buffer := [] }, before ++ segment ++ [0x2f],
            segment' ++ (urlPathSerializer more ++ rearText u)⟩ := by
        refine .keep_ascii (by decide) ?_
        rw [runState, pathState, endSegment_of_isPath _ h]
        rfl
      have hrest := hslash.ends (ih (path ++ [segment]) (by rwa [List.append_assoc, List.singleton_append]))
      rw [List.append_assoc, List.singleton_append] at hrest
      rw [urlPathSerializer_cons, List.cons_append, List.append_assoc]
      exact hrest

/-- Behind a host the path begins with a solidus, or there is none. -/
theorem ends_pathStart {path : List Bytes} (ctx : UrlParseContext) (hscheme : u.scheme = url.scheme) (hrear : u.Rear)
    (h : IsPath url.scheme path) (hneeds : isSpecialScheme url.scheme = true → path ≠ []) :
    Ends base ⟨.pathStart, url, { ctx with path := [], buffer := [] }, before, urlPathSerializer path ++ rearText u⟩
      (.ok (finish (url.withRear u) { ctx with path := path, buffer := [] })) := by
  cases path with
  | nil =>
      have hspecial : isSpecialScheme url.scheme = false := Bool.eq_false_iff.2 fun hspecial => hneeds hspecial rfl
      refine ends_rear { ctx with path := [] } .pathStart hscheme hrear ?_ ?_ ?_
      · intro rest
        rw [runState, pathStartState, hspecial]
        rfl
      · intro rest
        rw [runState, pathStartState, hspecial]
        rfl
      · intro unit substring
        rw [runState, pathStartState, hspecial]
        rfl
  | cons segment more =>
      have hslash : Reaches base
          ⟨.pathStart, url, { ctx with path := [], buffer := [] }, before,
            0x2f :: (segment ++ (urlPathSerializer more ++ rearText u))⟩
          ⟨.path, url, { ctx with path := [], buffer := [] }, before ++ [0x2f],
            segment ++ (urlPathSerializer more ++ rearText u)⟩ := by
        refine .keep_ascii (by decide) ?_
        rw [runState, pathStartState]
        cases isSpecialScheme url.scheme <;> rfl
      rw [urlPathSerializer_cons, List.cons_append, List.append_assoc]
      exact hslash.ends (ends_path [] ctx hscheme hrear h)

/-! ## Paths without a host -/

theorem rearText_head (u : UrlRecord) : rearText u = [] ∨ (rearText u).head? = some 0x3f ∨ (rearText u).head? = some 0x23 := by
  rw [rearText, serializeQuery, serializeFragment]
  cases u.hasQuery with
  | true => exact .inr (.inl rfl)
  | false =>
      cases u.hasFragment with
      | true => exact .inr (.inr rfl)
      | false => exact .inl rfl

theorem reaches_path {scheme : Bytes} (hascii : ∀ ch, text.head? = some ch → ch < 0x80 ∧ ch ≠ 0x2f) :
    Reaches base ⟨.pathOrAuthority, blank scheme, {}, before, text⟩ ⟨.path, blank scheme, {}, before, text⟩ := by
  cases text with
  | nil => exact .decrease_eof fun _ _ => rfl
  | cons ch text =>
      obtain ⟨hch, hslash⟩ := hascii ch rfl
      refine .decrease_ascii hch ?_
      have hc : ¬(asciiView ch text).c = 0x2f := fun h => hslash (UInt8.toNat_inj.1 h)
      rw [runState, pathOrAuthorityState, if_neg hc]

/-- A path without a host is read, with the mark in front of it where it has one. -/
theorem ends_serializePath {path : List Bytes} (hscheme : IsScheme u.scheme) (hspecial : isSpecialScheme u.scheme = false)
    (hrear : u.Rear) (h : IsPath u.scheme path) (hne : path ≠ []) (htext : u.path = urlPathSerializer path)
    (hhost : u.flags.host = false) (hlist : u.flags.opaquePath = false)
    (hempty : u.flags.emptyFirstPathSegment = decide (path.head? = some [])) :
    Ends base ⟨.schemeStart, {}, {}, [], u.scheme ++ 0x3a :: (serializePath u ++ rearText u)⟩
      (.ok (finish ((blank u.scheme).withRear u) { path := path })) := by
  cases path with
  | nil => exact absurd rfl hne
  | cons segment more =>
      have hsegment := h.segments segment List.mem_cons_self
      have hbegin (text : Bytes) : Reaches base ⟨.schemeStart, {}, {}, [], u.scheme ++ 0x3a :: 0x2f :: text⟩
          ⟨.pathOrAuthority, blank u.scheme, {}, u.scheme ++ [0x3a] ++ [0x2f], text⟩ :=
        (reaches_scheme hscheme).trans (reaches_pathOrAuthority hspecial)
      rw [serializePath, UrlRecord.hasHost, hhost, UrlRecord.isOpaquePath, hlist, UrlRecord.isEmptyFirstPathSegment, hempty,
        htext, urlPathSerializer_cons]
      by_cases hmark : (0x2f :: (segment ++ urlPathSerializer more)).length > 1 ∧ segment = []
      · -- the mark is a segment that is left out
        obtain ⟨hlong, rfl⟩ := hmark
        rw [if_pos (by rw [decide_eq_true hlong]; rfl)]
        refine (hbegin _).ends ((reaches_path ?_).ends ?_)
        · rintro ch hch
          cases hch
          decide
        have hbyte : ∀ b ∈ [0x2e], isSegmentByte (isSpecialScheme (blank u.scheme).scheme) b = true := by
          intro b hb
          rw [List.mem_singleton.1 hb]
          cases isSpecialScheme (blank u.scheme).scheme <;> decide
        have hdot : Reaches base
            ⟨.path, blank u.scheme, {}, u.scheme ++ [0x3a] ++ [0x2f],
              [0x2e] ++ 0x2f :: ([] ++ (urlPathSerializer more ++ rearText u))⟩
            ⟨.path, blank u.scheme, { buffer := [0x2e] }, u.scheme ++ [0x3a] ++ [0x2f] ++ [0x2e],
              0x2f :: ([] ++ (urlPathSerializer more ++ rearText u))⟩ :=
          reaches_segment (blank u.scheme) {} hbyte
        have hslash : Reaches base
            ⟨.path, blank u.scheme, { buffer := [0x2e] }, u.scheme ++ [0x3a] ++ [0x2f] ++ [0x2e],
              0x2f :: ([] ++ (urlPathSerializer more ++ rearText u))⟩
            ⟨.path, blank u.scheme, {}, u.scheme ++ [0x3a] ++ [0x2f] ++ [0x2e] ++ [0x2f],
              [] ++ (urlPathSerializer more ++ rearText u)⟩ :=
          .keep_ascii (by decide) (by rw [runState, pathState, endSegment]; rfl)
        exact (hdot.trans hslash).ends (ends_path [] {} rfl hrear h)
      · rw [if_neg]
        · refine (hbegin _).ends ((reaches_path ?_).ends ?_)
          · intro ch hch
            cases segment with
            | cons b segment =>
                cases hch
                obtain ⟨hascii, -, hslash, -⟩ := segmentByte_facts (hsegment.characters ch List.mem_cons_self)
                exact ⟨hascii, hslash⟩
            | nil =>
                have hmore : urlPathSerializer more = [] := by
                  by_contra hmore
                  refine hmark ⟨?_, rfl⟩
                  have := List.length_pos_iff.2 hmore
                  rw [List.nil_append, List.length_cons]
                  omega
                rw [hmore] at hch
                rcases rearText_head u with hhead | hhead | hhead
                · rw [hhead] at hch
                  cases hch
                · cases hhead.symm.trans hch
                  decide
                · cases hhead.symm.trans hch
                  decide
          · have hrest : Ends base ⟨.path, blank u.scheme, {}, u.scheme ++ [0x3a] ++ [0x2f],
                segment ++ (urlPathSerializer more ++ rearText u)⟩ _ := ends_path [] {} rfl hrear h
            rw [← List.append_assoc segment] at hrest
            exact hrest
        · simp only [Bool.not_false, Bool.and_true, Bool.true_and, List.head?_cons, Option.some.injEq, Bool.and_eq_true,
            decide_eq_true_eq]
          exact hmark

/-! ## Opaque paths -/

/-- What an opaque path in front of a text is read as. -/
def readOpaquePath (path rear : Bytes) : Bytes :=
  if path.getLast? = some 0x20 ∧ rear.length > 1 then path.dropLast ++ ascii "%20" else path

theorem readOpaquePath_cons (b b' : UInt8) (path rear : Bytes) :
    readOpaquePath (b :: b' :: path) rear = b :: readOpaquePath (b' :: path) rear := by
  rw [readOpaquePath, readOpaquePath, List.getLast?_cons_cons]
  split <;> rfl

theorem opaquePathByte_facts {b : UInt8} (h : isOpaquePathByte b = true) :
    b < 0x80 ∧ keeps c0ControlPercentEncodeSet b = true ∧ b ≠ 0x3f ∧ b ≠ 0x23 := by
  rw [isOpaquePathByte, Bool.and_eq_true, Bool.and_eq_true, bne_iff_ne, bne_iff_ne] at h
  exact ⟨keeps_ascii holdsHigh_c0Control h.1.1, h.1.1, h.1.2, h.2⟩

/-- What the state writes for a byte of the path. -/
theorem opaquePathState_byte {b : UInt8} (h : isOpaquePathByte b = true) (rest : Bytes) (url : UrlRecord)
    (ctx : UrlParseContext) :
    opaquePathState (asciiView b rest) url ctx =
      .ok ⟨.opaquePath, { url with path := url.path ++
        if b = 0x20 ∧ rest.length > 1 ∧ (rest.head? = some 0x3f ∨ rest.head? = some 0x23) then ascii "%20" else [b] }, ctx,
        .keep⟩ := by
  obtain ⟨-, hkeeps, hquery, hmark⟩ := opaquePathByte_facts h
  have hne {b' : UInt8} (h : b ≠ b') : ¬(asciiView b rest).c = b'.toNat := fun heq => h (UInt8.toNat_inj.1 heq)
  simp only [opaquePathState]
  rw [ if_neg (show ¬(asciiView b rest).c = 0x3f from hne hquery),
    if_neg (show ¬(asciiView b rest).c = 0x23 from hne hmark)]
  by_cases hspace : b = 0x20
  · subst hspace
    rw [if_pos (show (asciiView 0x20 rest).c = 0x20 from rfl)]
    simp only [true_and]
    rfl
  · have hencode : percentEncodeSet c0ControlPercentEncodeSet [b] = .ok [b] :=
      percentEncodeSet_of_keeps holdsHigh_c0Control fun b' hb' => (List.mem_singleton.1 hb') ▸ hkeeps
    rw [if_neg (show ¬(asciiView b rest).c = 0x20 from hne hspace)]
    simp only [codepointView, Bool.not_false, if_true, hencode, Except.map, hspace, false_and, if_false]

theorem reaches_opaqueText (url : UrlRecord) (ctx : UrlParseContext) (path : Bytes)
    (h : ∀ b ∈ text, isOpaquePathByte b = true) :
    Reaches base ⟨.opaquePath, { url with path := path }, ctx, before, text ++ rearText u⟩
      ⟨.opaquePath, { url with path := path ++ readOpaquePath text (rearText u) }, ctx, before ++ text, rearText u⟩ := by
  induction text generalizing path before with
  | nil =>
      have hnil : readOpaquePath [] (rearText u) = [] := if_neg fun h => by cases h.1
      rw [hnil, List.append_nil, List.append_nil]
      exact .refl _
  | cons b text ih =>
      obtain ⟨hb, htext⟩ := List.forall_mem_cons.1 h
      have hstep := opaquePathState_byte hb (text ++ rearText u) { url with path := path } ctx
      cases text with
      | nil =>
          refine .keep_ascii (opaquePathByte_facts hb).1 (hstep.trans ?_)
          have hread : readOpaquePath [b] (rearText u) = if b = 0x20 ∧ (rearText u).length > 1 ∧
              ((rearText u).head? = some 0x3f ∨ (rearText u).head? = some 0x23) then ascii "%20" else [b] := by
            refine if_congr (and_congr Option.some_inj ⟨fun hlong => ⟨hlong, ?_⟩, fun h => h.1⟩) rfl rfl
            refine (rearText_head u).resolve_left fun hnil => ?_
            rw [hnil] at hlong
            exact absurd hlong (by decide)
          rw [hread]
          rfl
      | cons b' text =>
          have hkept : ¬(b = 0x20 ∧ ((b' :: text) ++ rearText u).length > 1 ∧
              (((b' :: text) ++ rearText u).head? = some 0x3f ∨ ((b' :: text) ++ rearText u).head? = some 0x23)) := by
            obtain ⟨-, -, hquery, hmark⟩ := opaquePathByte_facts (htext b' List.mem_cons_self)
            rintro ⟨-, -, hhead | hhead⟩
            · cases hhead
              exact hquery rfl
            · cases hhead
              exact hmark rfl
          rw [if_neg hkept] at hstep
          have hfirst : Reaches base ⟨.opaquePath, { url with path := path }, ctx, before, b :: ((b' :: text) ++ rearText u)⟩
              ⟨.opaquePath, { url with path := path ++ [b] }, ctx, before ++ [b], (b' :: text) ++ rearText u⟩ :=
            .keep_ascii (opaquePathByte_facts hb).1 hstep
          have hrest := hfirst.trans (ih (path ++ [b]) htext)
          rw [List.append_assoc, List.append_assoc, List.singleton_append, List.singleton_append] at hrest
          rw [readOpaquePath_cons]
          exact hrest

/-- The record that is read from the text of one with an opaque path. -/
def opaqueRecord (u : UrlRecord) : UrlRecord :=
  { blank u.scheme with path := readOpaquePath u.path (rearText u), flags := { opaquePath := true } }

theorem ends_opaquePath (hscheme : IsScheme u.scheme) (hspecial : isSpecialScheme u.scheme = false) (hrear : u.Rear)
    (hpath : IsOpaquePath u.path) :
    Ends base ⟨.schemeStart, {}, {}, [], u.scheme ++ 0x3a :: (u.path ++ rearText u)⟩
      (.ok ((opaqueRecord u).withRear u)) := by
  have hhead : (u.path ++ rearText u).head? ≠ some 0x2f := by
    rw [List.head?_append]
    cases hpath' : u.path.head? with
    | some b =>
        rw [Option.some_or]
        exact fun h => hpath.head (hpath'.trans h)
    | none =>
        rw [Option.none_or]
        rcases rearText_head u with h | h | h
        · rw [h]
          nofun
        · rw [h]
          decide
        · rw [h]
          decide
  refine ((reaches_scheme hscheme).trans (reaches_opaquePath hspecial hhead)).ends ?_
  refine (reaches_opaqueText { blank u.scheme with flags := { opaquePath := true } } {} [] hpath.characters).ends ?_
  have hends : Ends base ⟨.opaquePath, opaqueRecord u, {}, u.scheme ++ [0x3a] ++ u.path, rearText u⟩ _ :=
    ends_rear {} .opaquePath rfl hrear (fun _ => rfl) (fun _ => rfl) fun _ _ => rfl
  rw [finish_of_nil rfl] at hends
  exact hends

/-! ## What is shown -/

/-- What is in front of the path. -/
def Components.front (c : Components) : Components :=
  { c with pathname := [], hasQuery := false, query := [], hasFragment := false, fragment := [] }

theorem components_withRear (hquery : url.flags.query = false) (hfragment : url.flags.fragment = false) (u : UrlRecord) :
    (url.withRear u).components = { url.components with
      hasQuery := u.hasQuery
      query := u.queryText
      hasFragment := u.hasFragment
      fragment := u.fragmentText } := by
  obtain ⟨flags⟩ := url
  cases flags
  cases hquery
  cases hfragment
  rw [UrlRecord.withRear, UrlRecord.queryText, UrlRecord.fragmentText]
  cases u.hasQuery <;> cases u.hasFragment <;> rfl

theorem components_finish (h : url.path = []) :
    (finish url ctx).components = { url.components with pathname := urlPathSerializer ctx.path } := by
  rw [finish]
  split
  · rfl
  · rename_i hnil
    have hpath : ctx.path = [] := by
      by_contra hne
      exact hnil ⟨h, hne⟩
    rw [hpath, UrlRecord.components, h]
    rfl

theorem withRear_path (url u : UrlRecord) : (url.withRear u).path = url.path := by
  rw [UrlRecord.withRear]
  cases u.hasQuery <;> cases u.hasFragment <;> rfl

/-- The parts are put together again. -/
theorem components_read {front : UrlRecord} {path : List Bytes} (hfront : front.components = u.components.front)
    (htext : u.path = urlPathSerializer path) (hpath : ctx.path = path) :
    (finish (front.withRear u) ctx).components = u.components := by
  have hnil : front.path = [] := congrArg Components.pathname hfront
  rw [components_finish ((withRear_path _ _).trans hnil),
    components_withRear (congrArg Components.hasQuery hfront) (congrArg Components.hasFragment hfront), hfront, hpath, ← htext]
  rfl

end Rad.Url
