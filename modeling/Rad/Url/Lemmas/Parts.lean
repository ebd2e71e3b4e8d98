import Rad.Url.WellFormed

/-!
# The texts that the states write

What is encoded with the set of a part is a text of this part, and the lists of segments are kept by what the path state
does to them.
-/

namespace Rad.Url

variable {b : UInt8} {c : Nat} {t : Bytes} {special : Bool} {scheme : Bytes} {path : List Bytes}

/-- A property of all bytes is decided for the 256 values. -/
theorem forall_byte {P : UInt8 → Bool} (h : ∀ n < 256, P (UInt8.ofNat n) = true) (b : UInt8) : P b = true := by
  have hb := h b.toNat b.toNat_lt
  rwa [UInt8.ofNat_toNat] at hb

/-- An ASCII byte is the whole sequence. -/
theorem eq_toNat_of_mem_utf8Encode (hb : b < 0x80) (h : b ∈ utf8Encode c) : c = b.toNat := by
  by_cases hlow : c < 0x80
  · obtain ⟨b', hb', hnat⟩ := toNat_utf8Encode_low hlow
    rw [hb', List.mem_singleton] at h
    rw [h, hnat]
  · exact absurd (Idna.utf8Encode_high (Nat.not_lt.1 hlow) b h) (UInt8.not_le.2 hb)

theorem utf8Encode_toNat_of_ascii (hb : b < 0x80) : utf8Encode b.toNat = [b] := by
  have hlt := UInt8.lt_iff_toNat_lt.1 hb
  rw [Idna.utf8Encode_low hlt, UInt8.ofNat_toNat]

/-! ## Characters of escapes -/

theorem isSegmentByte_escape (h : isEscapeCharacter b = true) : isSegmentByte special b = true := by
  have hall : ∀ b, (!isEscapeCharacter b || (isSegmentByte true b && isSegmentByte false b)) = true :=
    forall_byte (by decide +kernel)
  have hb := hall b
  rw [h, Bool.not_true, Bool.false_or, Bool.and_eq_true] at hb
  cases special with
  | false => exact hb.2
  | true => exact hb.1

theorem isOpaquePathByte_escape (h : isEscapeCharacter b = true) : isOpaquePathByte b = true ∧ b ≠ 0x2f ∧ b ≠ 0x20 := by
  have hall : ∀ b, (!isEscapeCharacter b || (isOpaquePathByte b && b != 0x2f && b != 0x20)) = true :=
    forall_byte (by decide +kernel)
  have hb := hall b
  rw [h, Bool.not_true, Bool.false_or, Bool.and_eq_true, Bool.and_eq_true, bne_iff_ne, bne_iff_ne] at hb
  exact ⟨hb.1.1, hb.1.2, hb.2⟩

theorem keeps_escape {encodeSet : List PerecentEncodeSetItem}
    (hset : encodeSet ∈ [userinfoPercentEncodeSet, fragmentPercentEncodeSet, queryPercentEncodeSet,
      specialQueryPercentEncodeSet]) (h : isEscapeCharacter b = true) : keeps encodeSet b = true := by
  have hall : ∀ b, (!isEscapeCharacter b || [userinfoPercentEncodeSet, fragmentPercentEncodeSet, queryPercentEncodeSet,
      specialQueryPercentEncodeSet].all fun encodeSet => keeps encodeSet b) = true := forall_byte (by decide +kernel)
  have hb := hall b
  rw [h, Bool.not_true, Bool.false_or, List.all_eq_true] at hb
  exact hb _ hset

/-- What is encoded with one of these sets is kept by it. -/
theorem keeps_encoded {encodeSet : List PerecentEncodeSetItem} {encoded : Bytes}
    (hset : encodeSet ∈ [userinfoPercentEncodeSet, fragmentPercentEncodeSet, queryPercentEncodeSet,
      specialQueryPercentEncodeSet]) (h : percentEncodeSet encodeSet t = .ok encoded) :
    ∀ b ∈ encoded, keeps encodeSet b = true := by
  have hhigh : HoldsHigh encodeSet := by
    have hall : ∀ s ∈ [userinfoPercentEncodeSet, fragmentPercentEncodeSet, queryPercentEncodeSet,
        specialQueryPercentEncodeSet], HoldsHigh s := by decide
    exact hall _ hset
  intro b hb
  rw [percentEncodeSet_eq_ok hhigh h] at hb
  rcases mem_encoded hb with ⟨-, hkeeps⟩ | hescape
  · exact hkeeps
  · exact keeps_escape hset hescape

theorem queryEncodeSet_mem (scheme : Bytes) :
    queryEncodeSet scheme ∈ [userinfoPercentEncodeSet, fragmentPercentEncodeSet, queryPercentEncodeSet,
      specialQueryPercentEncodeSet] := by
  rw [queryEncodeSet]
  split <;> decide

/-- What the path state puts into the buffer. -/
theorem isSegmentByte_encoded {encoded : Bytes} (hslash : c ≠ 0x2f) (hback : special = true → c ≠ 0x5c)
    (h : percentEncodeSet pathPercentEncodeSet (utf8Encode c) = .ok encoded) :
    ∀ b ∈ encoded, isSegmentByte special b = true := by
  intro b hb
  rw [percentEncodeSet_eq_ok holdsHigh_path h] at hb
  rcases mem_encoded hb with ⟨hmem, hkeeps⟩ | hescape
  · rw [isSegmentByte, hkeeps, Bool.true_and, Bool.and_eq_true, bne_iff_ne, Bool.not_eq_true', Bool.and_eq_false_iff]
    refine ⟨?_, ?_⟩
    · rintro rfl
      exact hslash (eq_toNat_of_mem_utf8Encode (by decide) hmem)
    · cases special with
      | false => exact .inl rfl
      | true =>
          refine .inr (beq_eq_false_iff_ne.2 ?_)
          rintro rfl
          exact hback rfl (eq_toNat_of_mem_utf8Encode (by decide) hmem)
  · exact isSegmentByte_escape hescape

theorem isOpaquePathByte_encoded {encoded : Bytes} (hquery : c ≠ 0x3f) (hfragment : c ≠ 0x23)
    (h : percentEncodeSet c0ControlPercentEncodeSet (utf8Encode c) = .ok encoded) :
    ∀ b ∈ encoded, isOpaquePathByte b = true ∧ (b ∈ utf8Encode c ∨ b ≠ 0x2f ∧ b ≠ 0x20) := by
  intro b hb
  rw [percentEncodeSet_eq_ok holdsHigh_c0Control h] at hb
  rcases mem_encoded hb with ⟨hmem, hkeeps⟩ | hescape
  · refine ⟨?_, .inl hmem⟩
    rw [isOpaquePathByte, hkeeps, Bool.true_and, Bool.and_eq_true, bne_iff_ne, bne_iff_ne]
    refine ⟨?_, ?_⟩
    · rintro rfl
      exact hquery (eq_toNat_of_mem_utf8Encode (by decide) hmem)
    · rintro rfl
      exact hfragment (eq_toNat_of_mem_utf8Encode (by decide) hmem)
  · obtain ⟨hbyte, hne⟩ := isOpaquePathByte_escape hescape
    exact ⟨hbyte, .inr hne⟩

theorem encodeByte_ne_nil (encodeSet : List PerecentEncodeSetItem) (b : UInt8) : encodeByte encodeSet b ≠ [] := by
  rw [encodeByte]
  split <;> exact List.cons_ne_nil _ _

/-- What is encoded begins with the text or with an escape. -/
theorem percentEncodeSet_ne_nil {encodeSet : List PerecentEncodeSetItem} {encoded : Bytes} (hset : HoldsHigh encodeSet)
    (hne : t ≠ []) (h : percentEncodeSet encodeSet t = .ok encoded) : encoded ≠ [] := by
  rw [percentEncodeSet_eq_ok hset h]
  cases t with
  | nil => exact absurd rfl hne
  | cons b t =>
      rw [List.flatMap_cons]
      exact fun hnil => encodeByte_ne_nil encodeSet b (List.append_eq_nil_iff.1 hnil).1

/-! ## Drive letters -/

theorem isWindowsDriveLetter_iff :
    isWindowsDriveLetter t = true ↔
      ∃ letter mark, t = [letter, mark] ∧ (mark = 0x3a ∨ mark = 0x7c) ∧ isAsciiAlpha letter.toNat = true := by
  constructor
  · intro h
    match t, h with
    | [letter, mark], h =>
      rw [isWindowsDriveLetter, Bool.and_eq_true, Bool.or_eq_true, beq_iff_eq, beq_iff_eq] at h
      exact ⟨letter, mark, rfl, h.1, h.2⟩
  · rintro ⟨letter, mark, rfl, hmark, hletter⟩
    rw [isWindowsDriveLetter, hletter, Bool.and_true, Bool.or_eq_true, beq_iff_eq, beq_iff_eq]
    exact hmark

/-- A letter with a colon or a bar is a segment. -/
theorem isSegment_drive {letter mark : UInt8} (hmark : mark = 0x3a ∨ mark = 0x7c)
    (hletter : isAsciiAlpha letter.toNat = true) : IsSegment special [letter, mark] := by
  have hall : ∀ letter : UInt8, (!isAsciiAlpha letter.toNat || ((isSegmentByte true letter && isSegmentByte false letter) &&
      [0x3a, 0x7c].all fun mark =>
        !isSingleDotPathSegment [letter, mark] && !isDoubleDotPathSegment [letter, mark])) = true :=
    forall_byte (by decide +kernel)
  have h := hall letter
  rw [hletter, Bool.not_true, Bool.false_or, Bool.and_eq_true, Bool.and_eq_true, List.all_eq_true] at h
  have hdots := h.2 mark (by rcases hmark with rfl | rfl <;> decide)
  rw [Bool.and_eq_true, Bool.not_eq_true', Bool.not_eq_true'] at hdots
  refine ⟨?_, hdots.1, hdots.2⟩
  intro b hb
  rw [List.mem_cons, List.mem_singleton] at hb
  rcases hb with rfl | rfl
  · cases special with
    | false => exact h.1.2
    | true => exact h.1.1
  · rcases hmark with rfl | rfl <;> cases special <;> decide

theorem isWindowsNormalizedDriveLetter_set (h : isWindowsDriveLetter t = true) :
    isWindowsNormalizedDriveLetter (t.set 1 0x3a) = true := by
  obtain ⟨letter, mark, rfl, -, hletter⟩ := isWindowsDriveLetter_iff.1 h
  exact hletter

/-! ## Lists of segments -/

theorem IsPath.concat {segment : Bytes} (h : IsPath scheme path) (hsegment : IsSegment (isSpecialScheme scheme) segment)
    (hdrive : scheme = ascii "file" → path = [] → isWindowsDriveLetter segment = true →
      isWindowsNormalizedDriveLetter segment = true) : IsPath scheme (path ++ [segment]) where
  segments s hs := by
    rw [List.mem_append, List.mem_singleton] at hs
    rcases hs with hs | rfl
    · exact h.segments s hs
    · exact hsegment
  drive hfile s hs := by
    cases path with
    | nil =>
        cases hs
        exact hdrive hfile rfl
    | cons segment' path => exact h.drive hfile s hs

theorem IsPath.concat_nil (h : IsPath scheme path) : IsPath scheme (path ++ [[]]) :=
  h.concat (.nil _) nofun

theorem IsPath.dropLast (h : IsPath scheme path) : IsPath scheme path.dropLast where
  segments s hs := h.segments s (List.dropLast_subset path hs)
  drive hfile s hs := by
    cases path with
    | nil => cases hs
    | cons segment path =>
        cases path with
        | nil => cases hs
        | cons segment' path => exact h.drive hfile s hs

theorem IsPath.shorten (h : IsPath scheme path) (scheme' : Bytes) : IsPath scheme (shortenUrlPath scheme' path) := by
  rw [shortenUrlPath]
  split
  · exact h
  · exact h.dropLast

/-- What is in the buffer becomes a segment. -/
theorem IsPath.endSegment {v : View} {url : UrlRecord} {ctx : UrlParseContext} (h : IsPath url.scheme ctx.path)
    (hbuffer : ∀ b ∈ ctx.buffer, isSegmentByte (isSpecialScheme url.scheme) b = true) :
    IsPath url.scheme (endSegment v url ctx) := by
  rw [Url.endSegment]
  split
  · split
    · exact (h.shorten _).concat_nil
    · exact h.shorten _
  split
  · exact h.concat_nil
  split
  · rename_i hdouble hsingle' hsingle
    rw [Bool.not_eq_true] at hdouble
    rw [Bool.not_eq_true'] at hsingle
    simp only
    split
    · rename_i hdrive
      obtain ⟨letter, mark, hletters, -, hletter⟩ := isWindowsDriveLetter_iff.1 hdrive.2.2
      refine h.concat ?_ fun _ _ _ => isWindowsNormalizedDriveLetter_set hdrive.2.2
      rw [hletters]
      exact isSegment_drive (.inl rfl) hletter
    · rename_i hdrive
      exact h.concat ⟨hbuffer, hsingle, hdouble⟩ fun hfile hnil hletter => absurd ⟨hfile, hnil, hletter⟩ hdrive
  · exact h

theorem endSegment_ne_nil {v : View} {url : UrlRecord} {ctx : UrlParseContext} (hc : v.c ≠ 0x2f) :
    endSegment v url ctx ≠ [] := by
  have hconcat (path : List Bytes) (segment : Bytes) : path ++ [segment] ≠ [] :=
    List.append_ne_nil_of_right_ne_nil _ (List.cons_ne_nil _ _)
  rw [endSegment]
  split
  · exact hconcat _ _
  split
  · exact hconcat _ _
  split
  · exact hconcat _ _
  · rename_i hsingle hsingle'
    rw [Bool.and_eq_true, not_and] at hsingle
    rw [Bool.not_eq_true, Bool.not_eq_false'] at hsingle'
    exact absurd (decide_eq_true hc) (hsingle hsingle')

theorem urlPathSerializer_cons (segment : Bytes) (path : List Bytes) :
    urlPathSerializer (segment :: path) = 0x2f :: (segment ++ urlPathSerializer path) := rfl

theorem splitOn_serializer (h : ∀ segment ∈ path, 0x2f ∉ segment) (segment : Bytes) (hsegment : 0x2f ∉ segment) :
    (segment ++ urlPathSerializer path).splitOn 0x2f = segment :: path := by
  induction path generalizing segment with
  | nil =>
      rw [show urlPathSerializer [] = [] from rfl, List.append_nil]
      exact List.splitOn_eq_singleton hsegment
  | cons segment' path ih =>
      obtain ⟨hsegment', hpath⟩ := List.forall_mem_cons.1 h
      rw [urlPathSerializer_cons, List.splitOn_append_cons_self, List.splitOn_eq_singleton hsegment, ih hpath segment' hsegment']
      rfl

/-- Segments are read back from their text. -/
theorem splitUrlPath_serializer (h : ∀ segment ∈ path, 0x2f ∉ segment) :
    splitUrlPath (urlPathSerializer path) = path := by
  cases path with
  | nil => rfl
  | cons segment path =>
      obtain ⟨hsegment, hpath⟩ := List.forall_mem_cons.1 h
      rw [urlPathSerializer_cons, splitUrlPath, if_neg (List.cons_ne_nil _ _)]
      simp only [List.head?_cons, if_true, List.drop_succ_cons, List.drop_zero]
      split
      · rename_i hnil
        obtain ⟨hsegment, hpath⟩ := List.append_eq_nil_iff.1 hnil
        rw [hsegment, urlPathSerializer_eq_nil hpath]
      · exact splitOn_serializer hpath segment hsegment

theorem IsSegment.noSlash {segment : Bytes} (h : IsSegment special segment) : 0x2f ∉ segment := fun hmem => by
  have hbyte := h.characters _ hmem
  rw [isSegmentByte, show keeps pathPercentEncodeSet 0x2f = true by decide] at hbyte
  simp at hbyte

theorem IsPath.split (h : IsPath scheme path) : splitUrlPath (urlPathSerializer path) = path :=
  splitUrlPath_serializer fun segment hsegment => (h.segments segment hsegment).noSlash

example : splitUrlPath (urlPathSerializer [ascii "a", [], ascii "b"]) = [ascii "a", [], ascii "b"] := by decide +kernel

end Rad.Url
