import Rad.Idna.Lemmas.Labels

/-!
# The ASCII form of a domain name

A domain name in ASCII whose labels do not begin with the prefix of Punycode is left as it is, and one with such a label
is never accepted.
-/

namespace Rad.Idna

variable {d a t m : Bytes} {cps : List Nat} {ls encoded : List Bytes} {verify : Bool} {total : Nat}

/-! ## Mapping -/

/-- What becomes of the code points of a domain name. -/
def mappedCodepoints (cps : List Nat) : List Nat :=
  (cps.map mapCodepoint).filter fun c => !isIgnoredIdnaCodePoint c

theorem isValidCodepoint_of_lt {c : Nat} (h : c < 0x80) : isValidCodepoint c = true :=
  isValidCodepoint_iff.2 ⟨by omega, by omega⟩

theorem lowerLetter_le (c : Nat) : lowerLetter c ≤ max c 0x7a := by
  rw [lowerLetter]
  split <;> omega

/-- A code point stays, or it becomes an ASCII one. -/
theorem mapCodepoint_eq (c : Nat) : mapCodepoint c = c ∨ mapCodepoint c < 0x80 := by
  have hlower : lowerLetter c = c ∨ lowerLetter c < 0x80 := by
    rw [lowerLetter]
    split <;> omega
  have hletter : plainLetter (lowerLetter c) = c ∨ plainLetter (lowerLetter c) < 0x80 := by
    rw [plainLetter]
    split_ifs <;> omega
  have hmark : plainMark (plainLetter (lowerLetter c)) = c ∨ plainMark (plainLetter (lowerLetter c)) < 0x80 := by
    simp only [plainMark]
    split_ifs <;> omega
  have hnarrow (n : Nat) : narrowCharacter n = n ∨ narrowCharacter n < 0x80 := by
    have := lowerLetter_le (n - 0xff01 + 0x21)
    rw [narrowCharacter]
    split <;> omega
  have := hnarrow (plainMark (plainLetter (lowerLetter c)))
  rw [mapCodepoint]
  omega

theorem mapCodepoint_valid {c : Nat} (h : isValidCodepoint c = true) : isValidCodepoint (mapCodepoint c) = true := by
  rcases mapCodepoint_eq c with heq | hlow
  · rw [heq]
    exact h
  · exact isValidCodepoint_of_lt hlow

/-- The mapping gives no capital letter. -/
theorem mapCodepoint_low (c : Nat) : ¬(0x41 ≤ mapCodepoint c ∧ mapCodepoint c ≤ 0x5a) := by
  have hlower (n : Nat) : ¬(0x41 ≤ lowerLetter n ∧ lowerLetter n ≤ 0x5a) := by
    rw [lowerLetter]
    split <;> omega
  have hletter := hlower c
  have hplain : ¬(0x41 ≤ plainLetter (lowerLetter c) ∧ plainLetter (lowerLetter c) ≤ 0x5a) := by
    rw [plainLetter]
    split_ifs <;> omega
  have hmark : ¬(0x41 ≤ plainMark (plainLetter (lowerLetter c)) ∧ plainMark (plainLetter (lowerLetter c)) ≤ 0x5a) := by
    simp only [plainMark]
    split_ifs <;> omega
  rw [mapCodepoint, narrowCharacter]
  split
  · exact hlower _
  · exact hmark

theorem mapCodepoint_ascii {b : UInt8} (h : b < 0x80) : mapCodepoint b.toNat = (tolowerCh b).toNat := by
  have hall : ∀ n < 128, mapCodepoint (UInt8.ofNat n).toNat = (tolowerCh (UInt8.ofNat n)).toNat := by decide
  have := hall b.toNat (UInt8.lt_iff_toNat_lt.1 h)
  rwa [UInt8.ofNat_toNat] at this

theorem tolowerCh_ascii {b : UInt8} (h : b < 0x80) : tolowerCh b < 0x80 := by
  have hall : ∀ n < 128, tolowerCh (UInt8.ofNat n) < 0x80 := by decide
  have := hall b.toNat (UInt8.lt_iff_toNat_lt.1 h)
  rwa [UInt8.ofNat_toNat] at this

theorem processing_of_ok {b : UInt8} {c : Nat} {rest : Bytes} (h : utf8Decode (b :: t) = (.ok c, rest)) :
    toAsciiDomainProcessing (b :: t) =
      if isIgnoredIdnaCodePoint (mapCodepoint c) then toAsciiDomainProcessing rest
      else if isDisallowedIdnaCodePoint (mapCodepoint c) then .error (.errc .illegalByteSequence)
      else (toAsciiDomainProcessing rest).map (utf8Encode (mapCodepoint c) ++ ·) := by
  rw [toAsciiDomainProcessing]
  split
  · rename_i h'
    rw [h] at h'
    cases h'
  · rename_i h'
    rw [h] at h'
    cases h'
    rfl

theorem processing_nil : toAsciiDomainProcessing [] = .ok [] := by rw [toAsciiDomainProcessing]

/-- The processing of an ASCII text is that of its case. -/
theorem processing_ascii (h : IsAscii t) : toAsciiDomainProcessing t = .ok (toLower t) := by
  induction t with
  | nil => exact processing_nil
  | cons b t ih =>
      obtain ⟨hb, ht⟩ := isAscii_cons.1 h
      have hlow : (tolowerCh b).toNat < 0x80 := UInt8.lt_iff_toNat_lt.1 (tolowerCh_ascii hb)
      obtain ⟨hignored, hdisallowed⟩ := inRanges_ascii hlow
      rw [processing_of_ok (utf8Decode_ascii hb t), mapCodepoint_ascii hb, hignored, hdisallowed, ih ht,
        utf8Encode_low hlow, UInt8.ofNat_toNat]
      rfl

/-- What is processed encodes the mapped code points. -/
theorem processing_ok (hd : utf8DecodeAll d = .ok cps) (h : toAsciiDomainProcessing d = .ok m) :
    m = (mappedCodepoints cps).flatMap utf8Encode := by
  induction d using toAsciiDomainProcessing.induct generalizing cps m with
  | case1 =>
      rw [processing_nil] at h
      rw [utf8DecodeAll_nil] at hd
      cases h
      cases hd
      rfl
  | case2 b t e rest hdecode =>
      rw [toAsciiDomainProcessing] at h
      split at h
      · cases h
      · rename_i h'
        rw [hdecode] at h'
        cases h'
  | case3 b t c rest hdecode =>
      rename_i hignored ih
      have hignored : isIgnoredIdnaCodePoint (mapCodepoint c) = true := hignored
      rw [processing_of_ok hdecode, if_pos hignored] at h
      rw [utf8DecodeAll_of_ok hdecode] at hd
      cases hrest : utf8DecodeAll rest with
      | error e => rw [hrest] at hd; cases hd
      | ok cps' =>
          rw [hrest] at hd
          cases hd
          rw [ih hrest h, mappedCodepoints, mappedCodepoints, List.map_cons, List.filter_cons_of_neg (by simp [hignored])]
  | case4 b t c rest hdecode =>
      rename_i hignored hdisallowed
      have hignored : ¬isIgnoredIdnaCodePoint (mapCodepoint c) = true := hignored
      rw [processing_of_ok hdecode, if_neg hignored, if_pos hdisallowed] at h
      cases h
  | case5 b t c rest hdecode =>
      rename_i hignored hdisallowed ih
      have hignored : ¬isIgnoredIdnaCodePoint (mapCodepoint c) = true := hignored
      rw [processing_of_ok hdecode, if_neg hignored, if_neg hdisallowed] at h
      rw [utf8DecodeAll_of_ok hdecode] at hd
      cases hrest : utf8DecodeAll rest with
      | error e => rw [hrest] at hd; cases hd
      | ok cps' =>
          cases hm : toAsciiDomainProcessing rest with
          | error e => rw [hm] at h; cases h
          | ok m' =>
              rw [hrest] at hd
              rw [hm] at h
              cases hd
              cases h
              rw [ih hrest hm, mappedCodepoints, mappedCodepoints, List.map_cons,
                List.filter_cons_of_pos (by simp [hignored]), List.flatMap_cons]

theorem processing_decodes (h : toAsciiDomainProcessing d = .ok m) : ∃ cps, utf8DecodeAll d = .ok cps := by
  induction d using toAsciiDomainProcessing.induct generalizing m with
  | case1 => exact ⟨[], utf8DecodeAll_nil⟩
  | case2 b t e rest hdecode =>
      rw [toAsciiDomainProcessing] at h
      split at h
      · cases h
      · rename_i h'
        rw [hdecode] at h'
        cases h'
  | case3 b t c rest hdecode =>
      rename_i hignored ih
      have hignored : isIgnoredIdnaCodePoint (mapCodepoint c) = true := hignored
      rw [processing_of_ok hdecode, if_pos hignored] at h
      obtain ⟨cps, hcps⟩ := ih h
      exact ⟨c :: cps, by rw [utf8DecodeAll_of_ok hdecode, hcps]; rfl⟩
  | case4 b t c rest hdecode =>
      rename_i hignored hdisallowed
      have hignored : ¬isIgnoredIdnaCodePoint (mapCodepoint c) = true := hignored
      rw [processing_of_ok hdecode, if_neg hignored, if_pos hdisallowed] at h
      cases h
  | case5 b t c rest hdecode =>
      rename_i hignored hdisallowed ih
      have hignored : ¬isIgnoredIdnaCodePoint (mapCodepoint c) = true := hignored
      rw [processing_of_ok hdecode, if_neg hignored, if_neg hdisallowed] at h
      cases hm : toAsciiDomainProcessing rest with
      | error e => rw [hm] at h; cases h
      | ok m' =>
          obtain ⟨cps, hcps⟩ := ih hm
          exact ⟨c :: cps, by rw [utf8DecodeAll_of_ok hdecode, hcps]; rfl⟩

/-! ## Labels -/

/-- The labels that the pass over them refuses. -/
def isRefusedLabel (label : Bytes) : Bool := punycodePrefix.isPrefixOf label || label == ascii "-"

theorem encodeLabel_ascii (h : IsAscii t) : encodeLabel t = .ok t := by
  rw [encodeLabel, needsPunycodeEncode_ascii h]
  rfl

/-- Labels in ASCII are left as they are. -/
theorem encodeLabels_ascii (h : ∀ label ∈ ls, IsAscii label) :
    encodeLabels false total ls = if ls.any isRefusedLabel then .error .invalidArgument else .ok ls := by
  induction ls generalizing total with
  | nil => rfl
  | cons label ls ih =>
      obtain ⟨hlabel, h⟩ := List.forall_mem_cons.1 h
      rw [encodeLabels, encodeLabel_ascii hlabel, List.any_cons, isRefusedLabel]
      by_cases hrefused : (punycodePrefix.isPrefixOf label || label == ascii "-") = true
      · rw [if_pos hrefused, hrefused]
        rfl
      · rw [if_neg hrefused, eq_false_of_ne_true hrefused]
        simp only [Except.bind, Bool.false_and, Bool.false_eq_true, if_false, ih h, Bool.false_or]
        split <;> rfl

/-- A label is refused, or it is ASCII and stays, or it gets the prefix. -/
theorem encodeLabels_ok (h : encodeLabels verify total ls = .ok encoded) :
    List.Forall₂ (fun label e => isRefusedLabel label = false ∧ encodeLabel label = .ok e) ls encoded := by
  induction ls generalizing total encoded with
  | nil =>
      cases h
      exact .nil
  | cons label ls ih =>
      rw [encodeLabels] at h
      split at h
      · cases h
      rename_i hrefused
      cases he : encodeLabel label with
      | error e => rw [he] at h; cases h
      | ok e =>
          rw [he] at h
          simp only [Except.bind] at h
          split at h
          · cases h
          split at h
          · cases h
          cases hrest : encodeLabels verify (total + e.length) ls with
          | error e' => rw [hrest] at h; cases h
          | ok encoded' =>
              rw [hrest] at h
              cases h
              exact .cons ⟨eq_false_of_ne_true hrefused, he⟩ (ih hrest)

/-! ## Names -/

theorem isAscii_toLower (h : IsAscii t) : IsAscii (toLower t) := fun b hb => by
  obtain ⟨b', hb', rfl⟩ := List.mem_map.1 hb
  exact tolowerCh_ascii (h b' hb')

theorem isAscii_label (h : IsAscii t) : ∀ label ∈ labels t, IsAscii label := fun label hlabel b hb => by
  by_cases hdot : b = 0x2e
  · rw [hdot]
    decide
  · exact h b (Lib.mem_of_mem_piece hlabel hb)

theorem domainToAscii_ascii (h : IsAscii t) :
    domainToAscii false t =
      if hyphenOutside (toLower t) || (labels (toLower t)).any isRefusedLabel then .error .invalidArgument
      else .ok (toLower t) := by
  have hlower := isAscii_toLower h
  have hneeds : (labels (toLower t)).any needsPunycodeEncode = false := by
    rw [List.any_eq_false]
    exact fun label hlabel => by rw [needsPunycodeEncode_ascii (isAscii_label hlower label hlabel)]; decide
  rw [domainToAscii, processing_ascii h]
  simp only [Except.bind, encodeLabels_ascii (isAscii_label hlower), hneeds, Bool.false_eq_true, if_false]
  cases hyphenOutside (toLower t) <;> cases (labels (toLower t)).any isRefusedLabel <;> rfl

/-- The steps of a domain name that is accepted. -/
theorem domainToAscii_ok (hd : utf8DecodeAll d = .ok cps) (h : domainToAscii verify d = .ok a) :
    ∃ m encoded, m = (mappedCodepoints cps).flatMap utf8Encode ∧ hyphenOutside m = false ∧
      List.Forall₂ (fun label e => isRefusedLabel label = false ∧ encodeLabel label = .ok e) (labels m) encoded ∧
      a = if (labels m).any needsPunycodeEncode then [0x2e].intercalate encoded else m := by
  rw [domainToAscii] at h
  cases hm : toAsciiDomainProcessing d with
  | error e => rw [hm] at h; cases h
  | ok m =>
      rw [hm] at h
      simp only [Except.bind] at h
      split at h
      · cases h
      rename_i hhyphen
      cases hencoded : encodeLabels verify 0 (labels m) with
      | error e => rw [hencoded] at h; cases h
      | ok encoded =>
          rw [hencoded] at h
          cases h
          exact ⟨m, encoded, processing_ok hd hm, eq_false_of_ne_true hhyphen, encodeLabels_ok hencoded, rfl⟩

theorem mappedCodepoints_ascii_iff :
    (∀ c ∈ mappedCodepoints cps, c < 0x80) ↔
      ∀ c ∈ cps, mapCodepoint c < 0x80 ∨ isIgnoredIdnaCodePoint (mapCodepoint c) = true := by
  simp only [mappedCodepoints, List.mem_filter, List.mem_map, Bool.not_eq_true', and_imp, forall_exists_index,
    forall_apply_eq_imp_iff₂, or_iff_not_imp_right, Bool.not_eq_true]

theorem mappedCodepoints_valid (h : ∀ c ∈ cps, isValidCodepoint c = true) :
    ∀ c ∈ mappedCodepoints cps, isValidCodepoint c = true := fun c hc => by
  obtain ⟨c', hc', rfl⟩ := List.mem_map.1 (List.mem_filter.1 hc).1
  exact mapCodepoint_valid (h c' hc')

/-- There are no capital letters left. -/
theorem toLower_mapped (h : ∀ c ∈ mappedCodepoints cps, c < 0x80) :
    toLower ((mappedCodepoints cps).flatMap utf8Encode) = (mappedCodepoints cps).flatMap utf8Encode := by
  refine (List.map_congr_left fun b hb => ?_).trans (List.map_id _)
  obtain ⟨c, hc, hb⟩ := List.mem_flatMap.1 hb
  obtain ⟨c', -, rfl⟩ := List.mem_map.1 (List.mem_filter.1 hc).1
  have hlow := h _ hc
  have hcapital := mapCodepoint_low c'
  rw [utf8Encode_low hlow, List.mem_singleton] at hb
  have htoNat : b.toNat = mapCodepoint c' := by
    rw [hb, UInt8.toNat_ofNat']
    omega
  rw [tolowerCh, if_neg, id]
  rw [UInt8.le_iff_toNat_le, UInt8.le_iff_toNat_le, htoNat]
  exact hcapital

/-- A label that is encoded is ASCII, and it begins with the prefix if it was not ASCII before. -/
theorem encodeLabel_ok {label e : Bytes} (h : encodeLabel label = .ok e) :
    if needsPunycodeEncode label then IsAscii e ∧ punycodePrefix <+: e else e = label := by
  rw [encodeLabel] at h
  split
  · rename_i hneeds
    rw [if_pos hneeds] at h
    cases hpunycode : punycodeEncode label with
    | error e => rw [hpunycode] at h; cases h
    | ok x =>
        rw [hpunycode] at h
        cases h
        exact ⟨isAscii_append.2 ⟨by decide, punycodeEncode_ascii hpunycode⟩, List.prefix_append _ _⟩
  · rename_i hneeds
    rw [if_neg hneeds] at h
    cases h
    rfl

theorem exists_encoded {R : Bytes → Bytes → Prop} {label : Bytes} (h : List.Forall₂ R ls encoded) (hlabel : label ∈ ls) :
    ∃ e ∈ encoded, R label e := by
  induction h with
  | nil => cases hlabel
  | cons hR _ ih =>
      rcases List.mem_cons.1 hlabel with rfl | hlabel
      · exact ⟨_, List.mem_cons_self, hR⟩
      · obtain ⟨e, he, hR'⟩ := ih hlabel
        exact ⟨e, List.mem_cons_of_mem _ he, hR'⟩

theorem labels_toLower (t : Bytes) : labels (toLower t) = (labels t).map toLower := by
  refine Lib.splitOn_map fun b _ => ?_
  have hall : ∀ n < 256, tolowerCh (UInt8.ofNat n) = 0x2e ↔ UInt8.ofNat n = 0x2e := by decide +kernel
  have := hall b.toNat b.toNat_lt
  rwa [UInt8.ofNat_toNat] at this

/-- A code point that is not ASCII is in a label that needs Punycode. -/
theorem exists_needs {cps : List Nat} (hvalid : ∀ c ∈ cps, isValidCodepoint c = true) (h : ¬∀ c ∈ cps, c < 0x80) :
    ∃ label ∈ labels (cps.flatMap utf8Encode), needsPunycodeEncode label = true := by
  simp only [not_forall, Nat.not_lt] at h
  obtain ⟨c, hc, hhigh⟩ := h
  obtain ⟨piece, hpiece, hmem⟩ := Lib.mem_splitOn_iff.2 ⟨hc, show c ≠ 0x2e by omega⟩
  refine ⟨piece.flatMap utf8Encode, ?_, ?_⟩
  · rw [labels_flatMap]
    exact List.mem_map_of_mem hpiece
  · rw [needsPunycodeEncode_flatMap fun c' hc' => hvalid c' (Lib.mem_of_mem_piece hpiece hc'), List.any_eq_true]
    exact ⟨c, hmem, decide_eq_true (by omega)⟩

theorem encoded_ascii {cps : List Nat} (hvalid : ∀ c ∈ cps, isValidCodepoint c = true)
    (h : List.Forall₂ (fun label e => isRefusedLabel label = false ∧ encodeLabel label = .ok e)
      (labels (cps.flatMap utf8Encode)) encoded) : ∀ e ∈ encoded, IsAscii e := by
  intro e he
  obtain ⟨label, hlabel, -, hencode⟩ := exists_encoded h.flip he
  have hlabelEncode := encodeLabel_ok hencode
  split at hlabelEncode
  · exact hlabelEncode.1
  · rename_i hneeds
    rw [labels_flatMap] at hlabel
    obtain ⟨piece, hpiece, rfl⟩ := List.mem_map.1 hlabel
    rw [needsPunycodeEncode_flatMap fun c hc => hvalid c (Lib.mem_of_mem_piece hpiece hc)] at hneeds
    rw [hlabelEncode, isAscii_flatMap]
    intro c hc
    by_contra hhigh
    exact hneeds (List.any_eq_true.2 ⟨c, hc, decide_eq_true (by omega)⟩)

theorem domainToAscii_decodes (h : domainToAscii verify d = .ok a) : ∃ cps, utf8DecodeAll d = .ok cps := by
  rw [domainToAscii] at h
  cases hm : toAsciiDomainProcessing d with
  | error e => rw [hm] at h; cases h
  | ok m => exact processing_decodes hm

/-- A name that is mapped to ASCII is accepted again. -/
theorem domainToAscii_again (hd : utf8DecodeAll d = .ok cps) (h : domainToAscii false d = .ok a)
    (hmapped : ∀ c ∈ cps, mapCodepoint c < 0x80 ∨ isIgnoredIdnaCodePoint (mapCodepoint c) = true) :
    IsAscii a ∧ domainToAscii false a = .ok a := by
  obtain ⟨m, encoded, hm, hhyphen, hencoded, ha⟩ := domainToAscii_ok hd h
  have hlow := mappedCodepoints_ascii_iff.2 hmapped
  have hascii : IsAscii m := hm ▸ isAscii_flatMap.2 hlow
  have hneeds : (labels m).any needsPunycodeEncode = false := by
    rw [List.any_eq_false]
    exact fun label hlabel => by rw [needsPunycodeEncode_ascii (isAscii_label hascii label hlabel)]; decide
  have hrefused : (labels m).any isRefusedLabel = false := by
    rw [List.any_eq_false]
    intro label hlabel
    obtain ⟨e, -, hlabel, -⟩ := exists_encoded hencoded hlabel
    rw [hlabel]
    decide
  rw [hneeds, if_neg (by decide)] at ha
  subst ha
  have hlower : toLower a = a := by rw [hm]; exact toLower_mapped hlow
  refine ⟨hascii, ?_⟩
  rw [domainToAscii_ascii hascii, hlower, hhyphen, hrefused]
  rfl

/-- The form of another name has a label with the prefix. -/
theorem exists_prefix (hd : utf8DecodeAll d = .ok cps) (h : domainToAscii false d = .ok a)
    (hmapped : ¬∀ c ∈ cps, mapCodepoint c < 0x80 ∨ isIgnoredIdnaCodePoint (mapCodepoint c) = true) :
    IsAscii a ∧ ∃ label ∈ labels a, punycodePrefix <+: label := by
  obtain ⟨m, encoded, hm, hhyphen, hencoded, ha⟩ := domainToAscii_ok hd h
  have hvalid := mappedCodepoints_valid (utf8DecodeAll_valid hd)
  -- some label is not ASCII, and it is given the prefix
  obtain ⟨label, hlabel, hneeds⟩ := exists_needs hvalid (mt mappedCodepoints_ascii_iff.1 hmapped)
  rw [← hm] at hlabel
  obtain ⟨e, he, -, hencode⟩ := exists_encoded hencoded hlabel
  have hprefix := encodeLabel_ok hencode
  rw [if_pos hneeds] at hprefix
  rw [if_pos (List.any_eq_true.2 ⟨label, hlabel, hneeds⟩)] at ha
  subst ha
  refine ⟨fun b hb => ?_, Lib.exists_piece_of_prefix (show 0x2e ∉ punycodePrefix by decide) ⟨e, he, hprefix.2⟩⟩
  rcases Lib.mem_intercalate hb with rfl | ⟨e', he', hb⟩
  · decide
  · exact encoded_ascii hvalid (hm ▸ hencoded) e' he' b hb

/-- The form of a name is ASCII, and without the prefix it is accepted again. -/
theorem domainToAscii_fixed (h : domainToAscii false d = .ok a) :
    IsAscii a ∧ ((∀ label ∈ labels a, ¬punycodePrefix <+: label) → domainToAscii false a = .ok a) := by
  obtain ⟨cps, hd⟩ := domainToAscii_decodes h
  by_cases hmapped : ∀ c ∈ cps, mapCodepoint c < 0x80 ∨ isIgnoredIdnaCodePoint (mapCodepoint c) = true
  · obtain ⟨hascii, hagain⟩ := domainToAscii_again hd h hmapped
    exact ⟨hascii, fun _ => hagain⟩
  · obtain ⟨hascii, label, hlabel, hprefix⟩ := exists_prefix hd h hmapped
    exact ⟨hascii, fun hnone => absurd hprefix (hnone label hlabel)⟩

/-- The form in ASCII is left as it is when all of the name is mapped to ASCII. Otherwise it has a label with the
prefix of Punycode, and is refused. -/
theorem domainToAscii_twice (hd : utf8DecodeAll d = .ok cps) (h : domainToAscii false d = .ok a) :
    if ∀ c ∈ cps, mapCodepoint c < 0x80 ∨ isIgnoredIdnaCodePoint (mapCodepoint c) = true then
      domainToAscii false a = .ok a
    else (∃ label ∈ labels a, punycodePrefix <+: label) ∧ domainToAscii false a = .error .invalidArgument := by
  split
  · rename_i hmapped
    exact (domainToAscii_again hd h hmapped).2
  · rename_i hmapped
    obtain ⟨hascii, label, hlabel, hprefix⟩ := exists_prefix hd h hmapped
    refine ⟨⟨label, hlabel, hprefix⟩, ?_⟩
    obtain ⟨rest, rfl⟩ := hprefix
    have hrefused : (labels (toLower a)).any isRefusedLabel = true := by
      rw [labels_toLower, List.any_map, List.any_eq_true]
      refine ⟨_, hlabel, ?_⟩
      rw [Function.comp_apply, isRefusedLabel, toLower, List.map_append]
      rfl
    rw [domainToAscii_ascii hascii, hrefused, Bool.or_true, if_pos rfl]

example : domainToAscii false (ascii "A.b") = .ok (ascii "a.b") := by decide +kernel

theorem domainToAscii_twice_fullwidth :
    domainToAscii false (utf8Encode 0xff21 ++ utf8Encode 0x3002 ++ ascii "b") = .ok (ascii "a.b") ∧
      domainToAscii false (ascii "a.b") = .ok (ascii "a.b") := by
  have hdecode : utf8DecodeAll (utf8Encode 0xff21 ++ utf8Encode 0x3002 ++ ascii "b") = .ok [0xff21, 0x3002, 0x62] := by
    decide +kernel
  have haccepted : domainToAscii false (utf8Encode 0xff21 ++ utf8Encode 0x3002 ++ ascii "b") = .ok (ascii "a.b") := by
    decide +kernel
  have htwice := domainToAscii_twice hdecode haccepted
  rw [if_pos (by decide +kernel)] at htwice
  exact ⟨haccepted, htwice⟩

/-- The form of a name that is not mapped to ASCII is refused. -/
theorem domainToAscii_not_fixed :
    ¬∀ d a cps, utf8DecodeAll d = .ok cps → domainToAscii false d = .ok a → domainToAscii false a = .ok a := by
  intro h
  have hdecode : utf8DecodeAll (utf8Encode 0x2603) = .ok [0x2603] := by decide +kernel
  have haccepted : domainToAscii false (utf8Encode 0x2603) = .ok (ascii "xn--n3h") := by decide +kernel
  have hrefused : domainToAscii false (ascii "xn--n3h") = .error .invalidArgument := by decide +kernel
  have hfixed := h _ _ _ hdecode haccepted
  rw [hrefused] at hfixed
  cases hfixed

end Rad.Idna
