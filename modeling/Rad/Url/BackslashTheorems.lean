import Rad.Url.Lemmas.ReadFront

/-!
# Back slashes in paths

The path of a special URL is read with a back slash for a slash. The two differ only behind a dot segment, where the path
state looks for a slash alone.
-/

namespace Rad.Url

variable {base : Option UrlRecord} {url : UrlRecord} {ctx : UrlParseContext} {before text : Bytes}

/-! ## Reading a path -/

/-- The path with one segment more, in front of a slash or not. -/
def endPath (slash : Bool) (path : List Bytes) (segment : Bytes) : List Bytes :=
  if isDoubleDotPathSegment segment then path.dropLast ++ (if slash then [] else [[]])
  else if isSingleDotPathSegment segment then path ++ (if slash then [] else [[]])
  else path ++ [segment]

theorem endSegment_eq (hscheme : url.scheme = ascii "http") (v : View) :
    endSegment v url ctx = endPath (v.c == 0x2f) ctx.path ctx.buffer := by
  have hfile : url.scheme ≠ ascii "file" := by
    rw [hscheme]
    decide
  have hshorten : shortenUrlPath url.scheme ctx.path = ctx.path.dropLast := if_neg fun h => hfile h.2.2
  rw [endSegment, endPath, hshorten]
  cases isDoubleDotPathSegment ctx.buffer with
  | true =>
      by_cases hc : v.c = 0x2f
      · simp [hc]
      · simp [hc]
  | false =>
      cases isSingleDotPathSegment ctx.buffer with
      | true =>
          by_cases hc : v.c = 0x2f
          · simp [hc]
          · simp [hc]
      | false => simp [hfile]

/-- What has been read of a path: the segments and the text of the next one. -/
structure PathText where
  path : List Bytes := []
  segment : Bytes := []

def isAnySlash (b : UInt8) : Bool := b == 0x2f || b == 0x5c

def PathText.read (p : PathText) (b : UInt8) : PathText :=
  if isAnySlash b then ⟨endPath (b == 0x2f) p.path p.segment, []⟩
  else ⟨p.path, p.segment ++ encodeByte pathPercentEncodeSet b⟩

theorem PathText.read_high (p : PathText) (h : ∀ b ∈ text, 0x80 ≤ b) :
    text.foldl PathText.read p = ⟨p.path, p.segment ++ text.flatMap (encodeByte pathPercentEncodeSet)⟩ := by
  induction text generalizing p with
  | nil => rw [List.flatMap_nil, List.append_nil]; rfl
  | cons b text ih =>
      obtain ⟨hb, htext⟩ := List.forall_mem_cons.1 h
      have hslash : isAnySlash b = false := by grind [isAnySlash]
      rw [List.foldl_cons, ih _ htext, read, hslash, if_neg Bool.false_ne_true, List.flatMap_cons, List.append_assoc]

/-- The path state over a code point. -/
theorem reaches_codepoint {c : Nat} {rest : Bytes} (p : PathText) (hscheme : url.scheme = ascii "http")
    (hc : c ≠ 0x3f ∧ c ≠ 0x23) (hvalid : isValidCodepoint c = true) :
    Reaches base ⟨.path, url, { ctx with path := p.path, buffer := p.segment }, before, utf8Encode c ++ rest⟩
      ⟨.path, url, { ctx with
        path := ((utf8Encode c).foldl PathText.read p).path, buffer := ((utf8Encode c).foldl PathText.read p).segment },
        before ++ utf8Encode c, rest⟩ := by
  refine .keep (utf8Decode_utf8Encode hvalid rest) ?_
  have hspecial : isSpecialScheme url.scheme = true := by
    rw [hscheme]
    decide
  have hquery : ((codepointView c (utf8Encode c) rest).c == 0x3f) = false := beq_eq_false_iff_ne.2 hc.1
  have hfragment : ((codepointView c (utf8Encode c) rest).c == 0x23) = false := beq_eq_false_iff_ne.2 hc.2
  by_cases hslash : c = 0x2f ∨ c = 0x5c
  · have hunit : (utf8Encode c).foldl PathText.read p = ⟨endPath (c == 0x2f) p.path p.segment, []⟩ := by
      rcases hslash with rfl | rfl <;> rfl
    have hend : ((codepointView c (utf8Encode c) rest).isEof || (codepointView c (utf8Encode c) rest).c == 0x2f ||
        ((codepointView c (utf8Encode c) rest).c == 0x5c && isSpecialScheme url.scheme) ||
        (codepointView c (utf8Encode c) rest).c == 0x3f || (codepointView c (utf8Encode c) rest).c == 0x23) = true := by
      rcases hslash with rfl | rfl <;> simp [codepointView, hspecial]
    rw [hunit, runState, pathState, if_pos hend, endSegment_eq hscheme]
    simp only [show (codepointView c (utf8Encode c) rest).c = c from rfl, if_neg hc.1, if_neg hc.2]
  · obtain ⟨hslash, hback⟩ := not_or.1 hslash
    have hend : ((codepointView c (utf8Encode c) rest).isEof || (codepointView c (utf8Encode c) rest).c == 0x2f ||
        ((codepointView c (utf8Encode c) rest).c == 0x5c && isSpecialScheme url.scheme) ||
        (codepointView c (utf8Encode c) rest).c == 0x3f || (codepointView c (utf8Encode c) rest).c == 0x23) = false := by
      simp [codepointView, hslash, hback, hc]
    have hunit : utf8DecodeAll (utf8Encode c) = .ok [c] := by
      have hunit := utf8Decode_utf8Encode hvalid []
      rw [List.append_nil] at hunit
      rw [utf8DecodeAll_of_ok hunit, utf8DecodeAll_nil]
      rfl
    have hread : (utf8Encode c).foldl PathText.read p =
        ⟨p.path, p.segment ++ (utf8Encode c).flatMap (encodeByte pathPercentEncodeSet)⟩ := by
      by_cases hhigh : 0x80 ≤ c
      · exact p.read_high (Idna.utf8Encode_high hhigh)
      · obtain ⟨b, hb, hbc⟩ := toNat_utf8Encode_low (Nat.lt_of_not_le hhigh)
        have hslash' : isAnySlash b = false := by
          have hne : b ≠ 0x2f ∧ b ≠ 0x5c := by
            constructor <;> rintro rfl
            · exact hslash hbc.symm
            · exact hback hbc.symm
          simp [isAnySlash, hne]
        rw [hb, List.foldl_cons, List.foldl_nil, PathText.read, hslash', if_neg Bool.false_ne_true, List.flatMap_singleton]
    rw [hread, runState, pathState, hend, if_neg Bool.false_ne_true]
    simp only [codepointView, percentEncodeSet_ok holdsHigh_path hunit]
    rfl

/-- The path state over the rest of the input. -/
theorem ends_pathText (p : PathText) (hscheme : url.scheme = ascii "http") (h : ∀ b ∈ text, b ≠ 0x3f ∧ b ≠ 0x23) :
    Ends base ⟨.path, url, { ctx with path := p.path, buffer := p.segment }, before, text⟩
      (match utf8DecodeAll text with
        | .ok _ =>
          let q := text.foldl PathText.read p
          .ok (finish url { ctx with path := endPath false q.path q.segment, buffer := [] })
        | .error _ => .error .invalidUrlUnit) := by
  -- one code point after the other
  induction text using utf8DecodeAll.induct generalizing p before with
  | case1 =>
      rw [utf8DecodeAll_nil]
      have hrun (unit substring : Bytes) :
          runState ⟨0, true, unit, [], substring⟩ base url { ctx with path := p.path, buffer := p.segment } .path =
            .ok ⟨.path, url, { ctx with path := endPath false p.path p.segment, buffer := [] }, .keep⟩ := by
        rw [runState, pathState, endSegment_eq hscheme]
        rfl
      exact Ends.eof hrun
  | case2 b rest c tail hdecode ih =>
      have htext := utf8Encode_of_decode hdecode
      have hvalid : isValidCodepoint c = true := by
        obtain ⟨-, -, -, -, -, -, hvalid, -⟩ := utf8Decode_ok hdecode
        exact hvalid
      rw [utf8DecodeAll_of_ok hdecode]
      rw [htext] at h ⊢
      obtain ⟨hunit, htail⟩ := List.forall_mem_append.1 h
      have hc : c ≠ 0x3f ∧ c ≠ 0x23 := by
        constructor
        · rintro rfl
          exact (hunit 0x3f (by decide)).1 rfl
        · rintro rfl
          exact (hunit 0x23 (by decide)).2 rfl
      refine (reaches_codepoint p hscheme hc hvalid).ends ?_
      let q := (utf8Encode c).foldl PathText.read p
      have hrest : Ends base ⟨.path, url, { ctx with path := q.path, buffer := q.segment }, before ++ utf8Encode c, tail⟩ _ :=
        ih q htail
      rw [List.foldl_append]
      cases hall : utf8DecodeAll tail with
      | ok cps => rw [hall] at hrest; exact hrest
      | error e => rw [hall] at hrest; exact hrest
  | case3 b rest e tail hdecode =>
      rw [utf8DecodeAll_of_error hdecode]
      exact Ends.decode_error (List.cons_ne_nil _ _) hdecode

/-! ## Slashes for back slashes -/

def toSlash (b : UInt8) : UInt8 := if b = 0x5c then 0x2f else b

/-- The text with a slash for every back slash. -/
def slashed (text : Bytes) : Bytes := text.map toSlash

theorem toSlash_of_not {b : UInt8} (h : isAnySlash b = false) : toSlash b = b := by
  rw [isAnySlash, Bool.or_eq_false_iff, beq_eq_false_iff_ne, beq_eq_false_iff_ne] at h
  exact if_neg h.2

theorem slashed_high (h : ∀ b ∈ text, 0x80 ≤ b) : slashed text = text := by
  have hsame : ∀ b ∈ text, toSlash b = b := fun b hb => if_neg fun hback => absurd (hback ▸ h b hb) (by decide)
  rw [slashed, List.map_congr_left hsame, List.map_id']

theorem utf8Decode_slashed {t rest : Bytes} {c : Nat} (h : utf8Decode t = (.ok c, rest)) :
    ∃ c', utf8Decode (slashed t) = (.ok c', slashed rest) := by
  obtain ⟨-, -, -, -, -, -, hvalid, -⟩ := utf8Decode_ok h
  have htext := utf8Encode_of_decode h
  rw [htext, slashed, List.map_append]
  by_cases hhigh : 0x80 ≤ c
  · rw [show (utf8Encode c).map toSlash = utf8Encode c from slashed_high (Idna.utf8Encode_high hhigh)]
    exact ⟨c, utf8Decode_utf8Encode hvalid _⟩
  · obtain ⟨b, hb, rfl⟩ := toNat_utf8Encode_low (Nat.lt_of_not_le hhigh)
    rw [hb]
    have hascii : toSlash b < 0x80 := by
      rw [toSlash]
      split
      · decide
      · exact UInt8.lt_iff_toNat_lt.2 (Nat.lt_of_not_le hhigh)
    exact ⟨_, utf8Decode_ascii hascii _⟩

theorem utf8Decode_of_slashed {t rest : Bytes} {c : Nat} (h : utf8Decode (slashed t) = (.ok c, rest)) :
    ∃ c' rest', utf8Decode t = (.ok c', rest') := by
  obtain ⟨-, -, -, -, -, -, hvalid, -⟩ := utf8Decode_ok h
  obtain ⟨unit, rest', rfl, hunit, -⟩ := List.map_eq_append_iff.1 (utf8Encode_of_decode h)
  by_cases hhigh : 0x80 ≤ c
  · have hsame : unit = utf8Encode c := by
      have hsame : ∀ b ∈ unit, toSlash b = b := by
        intro b hb
        have hbyte := Idna.utf8Encode_high hhigh (toSlash b) (hunit ▸ List.mem_map_of_mem hb)
        rw [toSlash] at hbyte ⊢
        split at hbyte
        · exact absurd hbyte (by decide)
        · exact if_neg ‹_›
      rw [← hunit, List.map_congr_left hsame, List.map_id']
    rw [hsame]
    exact ⟨c, rest', utf8Decode_utf8Encode hvalid rest'⟩
  · obtain ⟨b, hb, hbc⟩ := toNat_utf8Encode_low (Nat.lt_of_not_le hhigh)
    rw [hb] at hunit
    obtain ⟨b', rfl, hb'⟩ := List.map_eq_singleton_iff.1 hunit
    have hascii : b' < 0x80 := by
      rw [toSlash] at hb'
      split at hb'
      · rename_i hback
        rw [hback]
        decide
      · rw [hb', UInt8.lt_iff_toNat_lt, hbc]
        exact Nat.lt_of_not_le hhigh
    exact ⟨_, _, utf8Decode_ascii hascii rest'⟩

/-- The text can be decoded exactly when its slashed form can. -/
theorem wellFormed_slashed : (∃ cps, utf8DecodeAll (slashed text) = .ok cps) ↔ ∃ cps, utf8DecodeAll text = .ok cps := by
  induction text using utf8DecodeAll.induct with
  | case1 => exact Iff.rfl
  | case2 b rest c tail hdecode ih =>
      obtain ⟨c', hdecode'⟩ := utf8Decode_slashed hdecode
      rw [utf8DecodeAll_of_ok hdecode, utf8DecodeAll_of_ok hdecode']
      have hmap {t : Bytes} {c : Nat} : (∃ cps, (utf8DecodeAll t).map (c :: ·) = .ok cps) ↔
          ∃ cps, utf8DecodeAll t = .ok cps := by
        cases utf8DecodeAll t <;> simp [Except.map]
      rw [hmap, hmap]
      exact ih
  | case3 b rest e tail hdecode =>
      refine iff_of_false ?_ ?_
      · rintro ⟨cps, hcps⟩
        cases hslashed : utf8Decode (slashed (b :: rest)) with
        | mk r tail' =>
            cases r with
            | ok c =>
                obtain ⟨c', rest', h⟩ := utf8Decode_of_slashed hslashed
                rw [hdecode] at h
                cases h
            | error e =>
                rw [slashed, List.map_cons] at hslashed hcps
                rw [utf8DecodeAll_of_error hslashed] at hcps
                cases hcps
      · rintro ⟨cps, hcps⟩
        rw [utf8DecodeAll_of_error hdecode] at hcps
        cases hcps

/-! ## The two paths -/

/-- How far the paths of a text and of its slashed form are apart: the count of the segments of the slashed form, the
count of the segments that the other one has more, and the text of the next segment. -/
structure Skew where
  depth : Nat := 0
  excess : Nat := 0
  segment : Bytes := []

def Skew.endSegment (s : Skew) (back : Bool) : Skew :=
  let added := if back then 1 else 0
  if isDoubleDotPathSegment s.segment then
    -- without a segment of its own the slashed form has nothing to take away
    ⟨s.depth - 1, (if s.depth = 0 then s.excess - 1 else s.excess) + added, []⟩
  else if isSingleDotPathSegment s.segment then ⟨s.depth, s.excess + added, []⟩
  else ⟨s.depth + 1, s.excess, []⟩

def Skew.read (s : Skew) (b : UInt8) : Skew :=
  if isAnySlash b then s.endSegment (b == 0x5c)
  else { s with segment := s.segment ++ encodeByte pathPercentEncodeSet b }

/-- The empty segments that back slashes behind dot segments leave in the path. -/
def leftOver (text : Bytes) : Nat := ((text.foldl Skew.read {}).endSegment false).excess

/-- What is known about the paths of a text and of its slashed form. -/
structure Skew.Fits (s : Skew) (p q : PathText) : Prop where
  segment : p.segment = s.segment
  segment' : q.segment = s.segment
  depth : q.path.length = s.depth
  excess : p.path.length = s.depth + s.excess
  same : s.excess = 0 → p.path = q.path

variable {s : Skew} {p q : PathText}

theorem Skew.Fits.path_iff (h : s.Fits p q) : p.path = q.path ↔ s.excess = 0 := by
  refine ⟨fun hsame => ?_, h.same⟩
  have hlength := congrArg List.length hsame
  rw [h.depth, h.excess] at hlength
  omega

theorem Skew.Fits.endSegment (h : s.Fits p q) (back : Bool) :
    (s.endSegment back).Fits ⟨endPath (!back) p.path p.segment, []⟩ ⟨endPath true q.path q.segment, []⟩ := by
  obtain ⟨hsegment, hsegment', hdepth, hexcess, hsame⟩ := h
  rw [hsegment, hsegment', Skew.endSegment, endPath, endPath]
  split
  · refine ⟨rfl, rfl, ?_, ?_, fun hzero => ?_⟩
    · simp [hdepth]
    · have hlength : s.depth + s.excess - 1 = s.depth - 1 + if s.depth = 0 then s.excess - 1 else s.excess := by
        split <;> omega
      cases back <;> simp [hexcess, hlength]
      omega
    · have hback : back = false := by
        cases back with
        | false => rfl
        | true => exact absurd hzero (Nat.succ_ne_zero _)
      subst hback
      dsimp only at hzero ⊢
      split at hzero
      · rename_i hnil
        rw [List.eq_nil_of_length_eq_zero (hdepth.trans hnil)]
        have hshort : p.path.dropLast = [] := by
          refine List.eq_nil_of_length_eq_zero ?_
          rw [List.length_dropLast]
          simp at hzero
          omega
        rw [hshort]
        rfl
      · rw [hsame (by simpa using hzero)]
        rfl
  split
  · refine ⟨rfl, rfl, ?_, ?_, fun hzero => ?_⟩
    · simp [hdepth]
    · cases back <;> simp [hexcess]; omega
    · cases back with
      | false => rw [hsame (by simpa using hzero)]; rfl
      | true => exact absurd hzero (Nat.succ_ne_zero _)
  · refine ⟨rfl, rfl, ?_, ?_, fun hzero => ?_⟩
    · simp [hdepth]
    · simp [hexcess]; omega
    · rw [hsame hzero]

theorem Skew.Fits.read (h : s.Fits p q) (b : UInt8) : (s.read b).Fits (p.read b) (q.read (toSlash b)) := by
  cases hslash : isAnySlash b with
  | true =>
      have hend := h.endSegment (b == 0x5c)
      rw [isAnySlash, Bool.or_eq_true, beq_iff_eq, beq_iff_eq] at hslash
      rcases hslash with rfl | rfl <;> exact hend
  | false =>
      rw [Skew.read, PathText.read, PathText.read, toSlash_of_not hslash, hslash]
      simp only [Bool.false_eq_true, if_false, h.segment, h.segment']
      exact ⟨rfl, rfl, h.depth, h.excess, h.same⟩

/-- The two paths over a whole text. -/
theorem Skew.Fits.run (h : s.Fits p q) (text : Bytes) :
    (text.foldl Skew.read s).Fits (text.foldl PathText.read p) ((slashed text).foldl PathText.read q) := by
  induction text generalizing s p q with
  | nil => exact h
  | cons b text ih => exact ih (h.read b)

theorem endPath_false (path : List Bytes) (segment : Bytes) :
    endPath false path segment = endPath true path segment ++
      if isDoubleDotPathSegment segment || isSingleDotPathSegment segment then [[]] else [] := by
  rw [endPath, endPath]
  cases isDoubleDotPathSegment segment with
  | true => simp
  | false => cases isSingleDotPathSegment segment <;> simp

/-- The paths are the same if no empty segment is left over. -/
theorem endPath_eq_iff (text : Bytes) :
    (let p := text.foldl PathText.read {}
     let q := (slashed text).foldl PathText.read {}
     endPath false p.path p.segment = endPath false q.path q.segment) ↔ leftOver text = 0 := by
  have hfits : Skew.Fits {} {} {} := ⟨rfl, rfl, rfl, rfl, fun _ => rfl⟩
  have hrun := hfits.run text
  dsimp only
  rw [leftOver, ← (hrun.endSegment false).path_iff, endPath_false, endPath_false, hrun.segment, hrun.segment']
  exact List.append_left_inj _

/-! ## Paths without slashes in their segments -/

/-- No segment has a slash. -/
def PathText.NoSlash (p : PathText) : Prop := (∀ segment ∈ p.path, 0x2f ∉ segment) ∧ 0x2f ∉ p.segment

theorem endPath_noSlash (slash : Bool) (h : p.NoSlash) : ∀ segment ∈ endPath slash p.path p.segment, 0x2f ∉ segment := by
  have hempty : ∀ segment ∈ (if slash then [] else [[]] : List Bytes), (0x2f : UInt8) ∉ segment := by
    cases slash <;> simp
  rw [endPath]
  split
  · exact List.forall_mem_append.2 ⟨fun segment hsegment => h.1 segment (List.dropLast_subset _ hsegment), hempty⟩
  split
  · exact List.forall_mem_append.2 ⟨h.1, hempty⟩
  · exact List.forall_mem_append.2 ⟨h.1, List.forall_mem_singleton.2 h.2⟩

theorem PathText.NoSlash.read (h : p.NoSlash) (b : UInt8) : (p.read b).NoSlash := by
  rw [PathText.read]
  split
  · exact ⟨endPath_noSlash _ h, List.not_mem_nil⟩
  · rename_i hslash
    refine ⟨h.1, fun hmem => ?_⟩
    rcases List.mem_append.1 hmem with hold | hnew
    · exact h.2 hold
    · rcases mem_encodeByte hnew with ⟨rfl, -⟩ | hescape
      · exact hslash rfl
      · exact absurd hescape (by decide)

theorem PathText.NoSlash.run (h : p.NoSlash) (text : Bytes) : (text.foldl PathText.read p).NoSlash := by
  induction text generalizing p with
  | nil => exact h
  | cons b text ih => exact ih (h.read b)

theorem endPath_ne_nil (path : List Bytes) (segment : Bytes) : endPath false path segment ≠ [] := by
  rw [endPath]
  split
  · simp
  split
  · simp
  · simp

theorem finish_inj {path path' : List Bytes} (hurl : url.path = []) (hne : path ≠ []) (hne' : path' ≠ [])
    (hslash : ∀ segment ∈ path, 0x2f ∉ segment) (hslash' : ∀ segment ∈ path', 0x2f ∉ segment) :
    finish url { path := path } = finish url { path := path' } ↔ path = path' := by
  refine ⟨fun hsame => ?_, fun hsame => by rw [hsame]⟩
  have htext := congrArg UrlRecord.path hsame
  rw [finish, if_pos ⟨hurl, hne⟩, finish, if_pos ⟨hurl, hne'⟩] at htext
  dsimp only at htext
  rw [← splitUrlPath_serializer hslash, htext, splitUrlPath_serializer hslash']

/-! ## The parser -/

/-- The text behind the solidus, as it is read. -/
def readText (r : Bytes) : Bytes := removeTabsAndNewlines (r.rdropWhile isC0OrSpace)

theorem readText_slashed (r : Bytes) : readText (slashed r) = slashed (readText r) := by
  have hspace : isC0OrSpace ∘ toSlash = isC0OrSpace := by
    funext b
    rw [Function.comp_apply, toSlash]
    split
    · rename_i hb
      rw [hb]
      decide
    · rfl
  have htab : (fun b => !isAsciiTabOrNewline b) ∘ toSlash = fun b => !isAsciiTabOrNewline b := by
    funext b
    rw [Function.comp_apply, toSlash]
    split
    · rename_i hb
      rw [hb]
      decide
    · rfl
  rw [readText, slashed, List.rdropWhile, ← List.map_reverse, List.dropWhile_map, hspace, ← List.map_reverse,
    removeTabsAndNewlines, List.filter_map, htab]
  rfl

theorem mem_readText {r : Bytes} {b : UInt8} (h : b ∈ readText r) : b ∈ r :=
  (List.rdropWhile_prefix isC0OrSpace r).subset (List.mem_of_mem_filter h)

/-- The record in front of the path. -/
def hostRecord : UrlRecord :=
  { blank (ascii "http") with host := ascii "h", flags := { host := true, domainHost := true, specialScheme := true } }

theorem hostRecord_parse : parseHostText (ascii "h") (!isSpecialScheme (ascii "http")) = .ok (ascii "h", .domain) := by
  decide +kernel

theorem hostRecord_front : hostRecord.Front where
  scheme := ⟨by decide, List.all_eq_true.1 (by decide)⟩
  special := by decide
  userinfo := nofun
  host := fun _ => ⟨fun _ => ⟨_, _, hostRecord_parse⟩, nofun, fun _ => by decide⟩
  noHost := nofun
  bare := fun h => absurd h (by decide)
  file := fun h => absurd h (by decide)
  port := nofun

/-- The beginning of the input is read up to the path. -/
theorem reaches_hostRecord (base : Option UrlRecord) (text : Bytes) :
    ∃ (ctx : UrlParseContext) (before : Bytes),
      Reaches base ⟨.schemeStart, {}, {}, [], ascii "http://h/" ++ text⟩
        ⟨.path, frontRecord hostRecord .domain, { ctx with path := [], buffer := [] }, before, text⟩ := by
  have hscheme : IsScheme (ascii "http") := hostRecord_front.scheme
  have hauthority : Reaches base
      ⟨.schemeStart, {}, {}, [], ascii "http" ++ 0x3a :: 0x2f :: 0x2f :: 0x68 :: 0x2f :: text⟩
      ⟨.authority, blank (ascii "http"), {}, ascii "http" ++ [0x3a] ++ [0x2f] ++ [0x2f], 0x68 :: 0x2f :: text⟩ :=
    reaches_authority hscheme (by decide) fun _ ch hch => by
      cases hch
      exact .inl (by decide)
  obtain ⟨ctx, before, hctx, hfront⟩ := reaches_frontRecord base (ascii "http" ++ [0x3a] ++ [0x2f] ++ [0x2f])
    hostRecord_front rfl (by decide) hostRecord_parse (.inl (List.all_eq_true.1 (by decide)))
    (.inr (.inl (rfl : (0x2f :: text).head? = _)))
  have hslash : Reaches base ⟨.pathStart, frontRecord hostRecord .domain, ctx, before, 0x2f :: text⟩
      ⟨.path, frontRecord hostRecord .domain, ctx, before ++ [0x2f], text⟩ :=
    .keep_ascii (by decide) rfl
  have hsame : { ctx with path := [], buffer := [] } = ctx := by rw [← hctx.path, ← hctx.buffer]
  refine ⟨ctx, before ++ [0x2f], ?_⟩
  rw [hsame]
  exact (hauthority.trans hfront).trans hslash

/-- The record with the path of a text. -/
def pathRecord (text : Bytes) : UrlRecord :=
  let p := text.foldl PathText.read {}
  finish (frontRecord hostRecord .domain) { path := endPath false p.path p.segment }

theorem pathRecord_inj {text text' : Bytes} :
    pathRecord text = pathRecord text' ↔
      (let p := text.foldl PathText.read {}
       let q := text'.foldl PathText.read {}
       endPath false p.path p.segment = endPath false q.path q.segment) := by
  have hempty : PathText.NoSlash {} := ⟨nofun, nofun⟩
  exact finish_inj rfl (endPath_ne_nil _ _) (endPath_ne_nil _ _) (endPath_noSlash false (hempty.run text))
    (endPath_noSlash false (hempty.run text'))

/-- What the parser gives for a text behind the host. -/
theorem parses_pathRecord (base : Option UrlRecord) {r : Bytes} (h : ∀ b ∈ r, b ≠ 0x3f ∧ b ≠ 0x23) :
    Parses base (ascii "http://h/" ++ r)
      (match utf8DecodeAll (readText r) with
        | .ok _ => .ok (pathRecord (readText r))
        | .error _ => .error .invalidUrlUnit) := by
  refine Ends.parses ?_
  have hall : (ascii "http://h/").all fun ch => !isC0OrSpace ch && !isAsciiTabOrNewline ch := by decide
  have hplain : ∀ ch ∈ ascii "http://h/", isC0OrSpace ch = false ∧ isAsciiTabOrNewline ch = false := fun ch hch => by
    simpa using List.all_eq_true.1 hall ch hch
  rw [ownedInput_append r (by decide) hplain]
  obtain ⟨ctx, before, hfront⟩ := reaches_hostRecord base (readText r)
  exact hfront.ends (ends_pathText {} rfl fun b hb => h b (mem_readText hb))

/-- A back slash is a slash in the path if no empty segment is left over, and where there is nothing but an error. -/
theorem parses_slashed_iff (base : Option UrlRecord) {r : Bytes} (h : ∀ b ∈ r, b ≠ 0x3f ∧ b ≠ 0x23) :
    (∀ x, Parses base (ascii "http://h/" ++ r) x ↔ Parses base (ascii "http://h/" ++ slashed r) x) ↔
      ¬Utf8WellFormed (readText r) ∨ leftOver (readText r) = 0 := by
  have hslashed : ∀ b ∈ slashed r, b ≠ 0x3f ∧ b ≠ 0x23 := by
    intro b hb
    obtain ⟨b', hb', rfl⟩ := List.mem_map.1 hb
    rw [toSlash]
    split
    · decide
    · exact h b' hb'
  have hparses := parses_pathRecord base h
  have hparses' := parses_pathRecord base hslashed
  have hsame {a a' : Except UrlError UrlRecord} (ha : Parses base (ascii "http://h/" ++ r) a)
      (ha' : Parses base (ascii "http://h/" ++ slashed r) a') :
      (∀ x, Parses base (ascii "http://h/" ++ r) x ↔ Parses base (ascii "http://h/" ++ slashed r) x) ↔ a = a' := by
    refine ⟨fun hall => ((hall a).1 ha).unique ha', ?_⟩
    rintro rfl x
    exact ⟨fun hx => ha.unique hx ▸ ha', fun hx => ha'.unique hx ▸ ha⟩
  rw [hsame hparses hparses', readText_slashed]
  by_cases hwell : ∃ cps, utf8DecodeAll (readText r) = .ok cps
  · obtain ⟨cps', hcps'⟩ := wellFormed_slashed.2 hwell
    obtain ⟨cps, hcps⟩ := hwell
    rw [hcps, hcps', Except.ok.injEq, pathRecord_inj, endPath_eq_iff]
    exact ⟨.inr, fun hor => hor.resolve_left fun hnot => hnot (utf8DecodeAll_ok hcps).2⟩
  · have herror {t : Bytes} (ht : ¬∃ cps, utf8DecodeAll t = .ok cps) : ∃ e, utf8DecodeAll t = .error e := by
      cases hall : utf8DecodeAll t with
      | ok cps => exact absurd ⟨cps, hall⟩ ht
      | error e => exact ⟨e, rfl⟩
    obtain ⟨e, he⟩ := herror hwell
    obtain ⟨e', he'⟩ := herror (mt wellFormed_slashed.1 hwell)
    rw [he, he']
    exact iff_of_true rfl (.inl fun hill => hwell (utf8DecodeAll_of_wellFormed hill))

/-- The empty segment behind the single dot is taken away again. -/
theorem parses_slashed_dots : Parses none (ascii "http://h/.\\../a") = Parses none (ascii "http://h/./../a") :=
  funext fun x => propext
    ((parses_slashed_iff none (r := ascii ".\\../a") (by decide +kernel)).2 (.inr (by decide +kernel)) x)

theorem parses_slashed_differs :
    ¬∀ x, Parses none (ascii "http://h/" ++ ascii ".\\x") x ↔ Parses none (ascii "http://h/" ++ slashed (ascii ".\\x")) x := by
  intro hall
  have hrun : (Lib.runLoop (pass none) 40 (.initial (ascii "http://h/" ++ ascii ".\\x"))).map
      (fun r => r.toOption.map UrlRecord.path) = some (some (ascii "//x")) := by decide +kernel
  have hrun' : (Lib.runLoop (pass none) 40 (.initial (ascii "http://h/" ++ slashed (ascii ".\\x")))).map
      (fun r => r.toOption.map UrlRecord.path) = some (some (ascii "/x")) := by decide +kernel
  obtain ⟨a, ha, hpath⟩ := Lib.returns_of_map_runLoop hrun
  obtain ⟨a', ha', hpath'⟩ := Lib.returns_of_map_runLoop hrun'
  cases Parses.unique ((hall a).1 ha) ha'
  rw [hpath] at hpath'
  exact absurd hpath' (by decide)

end Rad.Url
