import Rad.Idna.AsciiTheorems
import Rad.Url.Lemmas.Invariant

/-!
# Hosts are read back

The text of a host is made of characters that neither end the authority nor begin a port, and it is parsed to itself.
-/

namespace Rad.Url

open Idna (IsAscii)

variable {t host input : Bytes} {b : UInt8}

/-- The byte is read as a part of a host that is not in brackets. -/
def isHostByte (b : UInt8) : Bool :=
  0x21 ≤ b && b ≤ 0x7e && b != 0x23 && b != 0x2f && b != 0x3a && b != 0x3f && b != 0x40 && b != 0x5b && b != 0x5c &&
    b != 0x5d && b != 0x7c

/-! ## Domains -/

theorem utf8DecodeUnchecked_ascii (hb : b < 0x80) (t : Bytes) : utf8DecodeUnchecked (b :: t) = some (b.toNat, t) :=
  utf8DecodeUnchecked_of_decode (utf8Decode_ascii hb t)

theorem containsForbiddenDomainCodePoint_ascii (h : IsAscii t) :
    containsForbiddenDomainCodePoint t = t.any fun b => isForbiddenDomainCodePoint b.toNat := by
  induction t with
  | nil =>
      rw [containsForbiddenDomainCodePoint]
      rfl
  | cons b t ih =>
      obtain ⟨hb, ht⟩ := Idna.isAscii_cons.1 h
      have hdecode := utf8DecodeUnchecked_ascii hb t
      rw [containsForbiddenDomainCodePoint]
      split
      · rename_i h'
        rw [hdecode] at h'
        cases h'
        rw [ih ht, List.any_cons]
      · rename_i h'
        rw [hdecode] at h'
        cases h'

theorem isHostByte_of_not_forbidden (hb : b < 0x80) (h : isForbiddenDomainCodePoint b.toNat = false) :
    isHostByte b = true ∧ b ≠ 0x25 := by
  simp only [isForbiddenDomainCodePoint, isForbiddenHostCodePoint, forbiddenHostCodePoints, isC0Control,
    List.contains_cons, List.contains_nil, Bool.or_eq_false_iff, beq_eq_false_iff_ne, decide_eq_false_iff_not] at h
  simp only [isHostByte, Bool.and_eq_true, decide_eq_true_eq, bne_iff_ne, ne_eq, UInt8.le_iff_toNat_le,
    UInt8.lt_iff_toNat_lt, ← UInt8.toNat_inj, UInt8.reduceToNat] at hb ⊢
  omega

/-- A text without a percent sign is left as it is, or it is an error. -/
theorem percentDecode_plain (h : 0x25 ∉ t) : (percentDecode t).toOption.getD t = t := by
  have hcases : percentDecode t = .ok t ∨ ∃ e, percentDecode t = .error e := by
    rw [percentDecode]
    induction t with
    | nil =>
        left
        rw [doPercentDecode]
    | cons ch t ih =>
        rw [List.mem_cons, not_or] at h
        rw [doPercentDecode]
        split
        · rcases ih h.2 with ht | ⟨e, ht⟩
          · rw [ht]
            exact .inl rfl
          · rw [ht]
            exact .inr ⟨e, rfl⟩
        · rw [if_pos (Ne.symm h.1)]
          exact .inr ⟨_, rfl⟩
  rcases hcases with h | ⟨e, h⟩ <;> rw [h] <;> rfl

/-- The characters of a domain that is accepted. -/
theorem domain_bytes {domain : Bytes} (h : urlDomainToAscii domain = .ok t) :
    IsAscii t ∧ ∀ b ∈ t, isHostByte b = true ∧ b ≠ 0x25 := by
  obtain ⟨hdomain, -, hforbidden⟩ := urlDomainToAscii_ok h
  have hascii := (Idna.domainToAscii_fixed hdomain).1
  refine ⟨hascii, fun b hb => isHostByte_of_not_forbidden (hascii b hb) ?_⟩
  rw [containsForbiddenDomainCodePoint_ascii hascii, List.any_eq_false] at hforbidden
  exact Bool.eq_false_iff.2 (hforbidden b hb)

theorem head?_ne_bracket (h : ∀ b ∈ t, isHostByte b = true) : t.head? ≠ some 0x5b := fun hhead =>
  absurd (h _ (List.mem_of_mem_head? hhead)) (by decide)

/-- A text of such characters is parsed as a domain or as an IPv4 address. -/
theorem parseHostText_of_domain (hne : t ≠ []) (hbytes : ∀ b ∈ t, isHostByte b = true ∧ b ≠ 0x25)
    (hascii : urlDomainToAscii t = .ok t) :
    parseHostText t false =
      if urlDomainEndsInNumber t then (parseUrlIpv4Host t).map (·.toText, .ipv4) else .ok (t, .domain) := by
  rw [parseHostText, if_neg hne, if_neg (head?_ne_bracket fun b hb => (hbytes b hb).1), if_neg Bool.false_ne_true,
    percentDecode_plain fun hmem => (hbytes _ hmem).2 rfl]
  simp only [hascii, Except.bind]

theorem urlDomainToAscii_again {domain : Bytes} (h : urlDomainToAscii domain = .ok t)
    (hlabels : ∀ label ∈ Idna.labels t, ¬Idna.punycodePrefix <+: label) : urlDomainToAscii t = .ok t := by
  obtain ⟨hdomain, hne, hforbidden⟩ := urlDomainToAscii_ok h
  simp only [urlDomainToAscii, (Idna.domainToAscii_fixed hdomain).2 hlabels, if_neg hne, hforbidden, Bool.false_eq_true,
    if_false]

/-! ## IPv4 -/

/-- A digit or a dot. -/
def isDottedByte (b : UInt8) : Bool := (0x30 ≤ b && b ≤ 0x39) || b == 0x2e

theorem isDottedByte_facts (h : isDottedByte b = true) :
    b < 0x80 ∧ isHostByte b = true ∧ b ≠ 0x25 ∧ b ≠ 0x2d ∧ b ≠ 0x78 ∧ tolowerCh b = b ∧
      isForbiddenDomainCodePoint b.toNat = false := by
  simp only [isDottedByte, Bool.or_eq_true, Bool.and_eq_true, decide_eq_true_eq, beq_iff_eq, UInt8.le_iff_toNat_le,
    ← UInt8.toNat_inj, UInt8.reduceToNat] at h
  have hlow : b < 0x80 := UInt8.lt_iff_toNat_lt.2 (show b.toNat < 0x80 by omega)
  have hforbidden : isForbiddenDomainCodePoint b.toNat = false := by
    simp only [isForbiddenDomainCodePoint, isForbiddenHostCodePoint, forbiddenHostCodePoints, isC0Control,
      List.contains_cons, List.contains_nil, Bool.or_eq_false_iff, beq_eq_false_iff_ne, decide_eq_false_iff_not, and_true]
    omega
  obtain ⟨hhost, hpercent⟩ := isHostByte_of_not_forbidden hlow hforbidden
  simp only [tolowerCh, UInt8.le_iff_toNat_le, ne_eq, ← UInt8.toNat_inj, UInt8.reduceToNat]
  refine ⟨hlow, hhost, fun h' => hpercent (UInt8.toNat_inj.1 h'), by omega, by omega, ?_, hforbidden⟩
  rw [if_neg (by omega)]

/-- Digits and dots are a domain. -/
theorem urlDomainToAscii_dotted (hne : t ≠ []) (h : ∀ b ∈ t, isDottedByte b = true) : urlDomainToAscii t = .ok t := by
  have hascii : IsAscii t := fun b hb => (isDottedByte_facts (h b hb)).1
  have hlower : toLower t = t := by
    refine (List.map_congr_left fun b hb => ?_).trans (List.map_id _)
    exact (isDottedByte_facts (h b hb)).2.2.2.2.2.1
  have hhyphen : Idna.hyphenOutside t = false := by
    rw [Idna.hyphenOutside, Bool.or_eq_false_iff, beq_eq_false_iff_ne, beq_eq_false_iff_ne]
    refine ⟨fun hhead => ?_, fun hlast => ?_⟩
    · exact absurd rfl (isDottedByte_facts (h _ (List.mem_of_mem_head? hhead))).2.2.2.1
    · exact absurd rfl (isDottedByte_facts (h _ (List.mem_of_getLast? hlast))).2.2.2.1
  have hrefused : (Idna.labels t).any Idna.isRefusedLabel = false := by
    rw [List.any_eq_false]
    intro label hlabel hrefused
    rw [Idna.isRefusedLabel, Bool.or_eq_true, List.isPrefixOf_iff_prefix, beq_iff_eq] at hrefused
    rcases hrefused with ⟨rest, rfl⟩ | rfl
    · exact absurd rfl (isDottedByte_facts (h 0x78 (Lib.mem_of_mem_piece hlabel (List.mem_append_left _ (by decide))))).2.2.2.2.1
    · exact absurd rfl (isDottedByte_facts (h 0x2d (Lib.mem_of_mem_piece hlabel (by decide)))).2.2.2.1
  have hforbidden : containsForbiddenDomainCodePoint t = false := by
    rw [containsForbiddenDomainCodePoint_ascii hascii, List.any_eq_false]
    intro b hb
    rw [(isDottedByte_facts (h b hb)).2.2.2.2.2.2]
    exact Bool.false_ne_true
  have hdomain : Idna.domainToAscii false t = .ok t := by
    rw [Idna.domainToAscii_ascii hascii, hlower, hhyphen, hrefused]
    rfl
  simp only [urlDomainToAscii, hdomain, if_neg hne, hforbidden, Bool.false_eq_true, if_false]

/-- What is known of the digits of the numbers up to 255. -/
theorem decimal_facts {n : Nat} (h : n < 256) :
    (∀ b ∈ toChars 10 n, isDottedByte b = true) ∧ 0x2e ∉ toChars 10 n ∧ parseIpv4Number (toChars 10 n) = some n ∧
      isDecimalOrHexNumber (toChars 10 n) = true ∧ toChars 10 n ≠ [] := by
  have hall : ∀ n < 256, (toChars 10 n).all isDottedByte = true ∧ 0x2e ∉ toChars 10 n ∧
      parseIpv4Number (toChars 10 n) = some n ∧ isDecimalOrHexNumber (toChars 10 n) = true ∧ toChars 10 n ≠ [] := by
    decide +kernel
  exact (hall n h).imp_left List.all_eq_true.1

/-- The numbers of an address, from its text on. -/
theorem parseHostText_ipv4 (address : Ipv4) :
    (∀ b ∈ address.toText, isHostByte b = true) ∧
      parseHostText address.toText false = .ok (address.toText, .ipv4) := by
  obtain ⟨a, b, c, d, ha, hb, hc, hd, hsum, htext⟩ : ∃ a b c d, a < 256 ∧ b < 256 ∧ c < 256 ∧ d < 256 ∧
      address.toNat = d + a * 256 ^ 3 + b * 256 ^ 2 + c * 256 ^ 1 ∧
        address.toText = [0x2e].intercalate [toChars 10 a, toChars 10 b, toChars 10 c, toChars 10 d] := by
    have hlt := address.toNat_lt
    refine ⟨_, _, _, _, ?_, ?_, ?_, ?_, ?_, rfl⟩
    all_goals omega
  obtain ⟨hadots, hadot, hanumber, -, -⟩ := decimal_facts ha
  obtain ⟨hbdots, hbdot, hbnumber, -, -⟩ := decimal_facts hb
  obtain ⟨hcdots, hcdot, hcnumber, -, -⟩ := decimal_facts hc
  obtain ⟨hddots, hddot, hdnumber, hdlast, hdne⟩ := decimal_facts hd
  have hbytes : ∀ ch ∈ address.toText, isDottedByte ch = true := by
    intro ch hch
    rw [htext] at hch
    rcases Lib.mem_intercalate hch with rfl | ⟨part, hpart, hch⟩
    · rfl
    · simp only [List.mem_cons, List.not_mem_nil, or_false] at hpart
      rcases hpart with rfl | rfl | rfl | rfl
      · exact hadots ch hch
      · exact hbdots ch hch
      · exact hcdots ch hch
      · exact hddots ch hch
  have hsplit : address.toText.splitOn 0x2e = [toChars 10 a, toChars 10 b, toChars 10 c, toChars 10 d] := by
    rw [htext]
    exact List.splitOn_intercalate _ (by simp [hadot, hbdot, hcdot, hddot]) (List.cons_ne_nil _ _)
  have hparts : ipv4Parts address.toText = [toChars 10 a, toChars 10 b, toChars 10 c, toChars 10 d] := by
    rw [ipv4Parts, hsplit]
    refine if_neg fun h => hdne ?_
    have hlast := h.1
    simpa using hlast
  have hends : urlDomainEndsInNumber address.toText = true := by
    rw [urlDomainEndsInNumber, hsplit, hparts]
    simp [hdlast]
  have hnumbers : ipv4Numbers [toChars 10 a, toChars 10 b, toChars 10 c, toChars 10 d] = .ok [a, b, c, d] := by
    simp only [ipv4Numbers, hanumber, hbnumber, hcnumber, hdnumber]
    rfl
  have hsums : addIpv4Numbers (UInt32.ofNat d) 0 [a, b, c] = address := by
    simp only [addIpv4Numbers, ← UInt32.ofNat_mul, ← UInt32.ofNat_add]
    rw [show d + a * 256 ^ (3 - 0) + b * 256 ^ (3 - (0 + 1)) + c * 256 ^ (3 - (0 + 1 + 1)) = address.toNat from hsum.symm,
      UInt32.ofNat_toNat]
  have hparse : parseUrlIpv4Host address.toText = .ok address := by
    rw [parseUrlIpv4Host, hparts]
    simp only [List.length_cons, List.length_nil, hnumbers, Except.bind]
    rw [if_neg (by decide), if_neg, if_neg]
    · exact congrArg Except.ok hsums
    · simp
      omega
    · simp
      omega
  refine ⟨fun b hb => (isDottedByte_facts (hbytes b hb)).2.1, ?_⟩
  have hdomain := urlDomainToAscii_dotted address.toText_ne_nil hbytes
  rw [parseHostText_of_domain address.toText_ne_nil
    (fun b hb => ⟨(isDottedByte_facts (hbytes b hb)).2.1, (isDottedByte_facts (hbytes b hb)).2.2.1⟩) hdomain, if_pos hends,
    hparse]
  rfl

/-! ## Opaque hosts -/

theorem containsForbiddenHostCodePoint_ascii (hascii : IsAscii t)
    (h : ∀ b ∈ t, isForbiddenHostCodePoint b.toNat = false) : containsForbiddenHostCodePoint t = false := by
  -- induction on the length: an escape is skipped
  induction hn : t.length using Nat.strongRecOn generalizing t with
  | ind n ih =>
      cases t with
      | nil =>
          rw [containsForbiddenHostCodePoint]
          rfl
      | cons b t =>
          obtain ⟨hb, ht⟩ := Idna.isAscii_cons.1 hascii
          obtain ⟨hforbidden, htail⟩ := List.forall_mem_cons.1 h
          have hdecode := utf8DecodeUnchecked_ascii hb t
          rw [List.length_cons] at hn
          rw [containsForbiddenHostCodePoint]
          split
          · rename_i c rest h'
            rw [hdecode] at h'
            cases h'
            rw [if_neg (by rw [hforbidden]; exact Bool.false_ne_true)]
            split
            · have hsub := List.drop_subset 2 t
              have hlen := List.length_drop (i := 2) (l := t)
              exact ih _ (by omega) (fun b hb => ht b (hsub hb)) (fun b hb => htail b (hsub hb)) rfl
            · exact ih _ (by omega) ht htail rfl
          · rfl

/-- No ASCII character of an opaque host is forbidden. -/
theorem not_forbidden_of_opaque {cps : List Nat} (hdecode : utf8DecodeAll t = .ok cps)
    (h : containsForbiddenHostCodePoint t = false) : ∀ b ∈ t, b < 0x80 → isForbiddenHostCodePoint b.toNat = false := by
  induction hn : t.length using Nat.strongRecOn generalizing t cps with
  | ind n ih =>
      cases t with
      | nil => nofun
      | cons b t =>
          cases hfirst : utf8Decode (b :: t) with
          | mk r rest =>
              cases r with
              | error e =>
                  rw [utf8DecodeAll] at hdecode
                  split at hdecode
                  · rename_i h'
                    rw [hfirst] at h'
                    cases h'
                  · cases hdecode
              | ok c =>
                  have hunchecked := utf8DecodeUnchecked_of_decode hfirst
                  have hlt := utf8DecodeUnchecked_lt hunchecked
                  rw [utf8DecodeAll_of_ok hfirst] at hdecode
                  obtain ⟨cps', hcps'⟩ : ∃ cps', utf8DecodeAll rest = .ok cps' := by
                    cases hrest : utf8DecodeAll rest with
                    | error e => rw [hrest] at hdecode; cases hdecode
                    | ok cps' => exact ⟨cps', rfl⟩
                  rw [containsForbiddenHostCodePoint] at h
                  split at h
                  · rename_i c' rest' h'
                    rw [hunchecked] at h'
                    cases h'
                    split at h
                    · cases h
                    · rename_i hforbidden
                      rw [utf8Encode_of_decode hfirst]
                      intro ch hch hlow
                      rcases List.mem_append.1 hch with hunit | hrest
                      · rw [← eq_toNat_of_mem_utf8Encode hlow hunit]
                        exact Bool.eq_false_iff.2 hforbidden
                      · split at h
                        · rename_i hescape
                          -- the two digits are skipped, and they are not forbidden
                          match rest, hescape.2, hcps', h, hrest, hlt with
                          | x :: y :: tail, hdigits, hcps', h, hrest, hlt =>
                            rw [startsWithTwoHexDigits, Bool.and_eq_true] at hdigits
                            have hall := hdigits.2
                            simp only [List.take_succ_cons, List.take_zero, List.all_cons, List.all_nil, Bool.and_true,
                              Bool.and_eq_true] at hall
                            have hdigit (d : UInt8) (hd : isHexDigit d = true) :
                                d < 0x80 ∧ isForbiddenHostCodePoint d.toNat = false := by
                              simp only [isHexDigit, isAsciiNumeric, Bool.or_eq_true, Bool.and_eq_true,
                                decide_eq_true_eq, UInt8.le_iff_toNat_le, UInt8.reduceToNat] at hd
                              simp only [isForbiddenHostCodePoint, forbiddenHostCodePoints, List.contains_cons,
                                List.contains_nil, Bool.or_eq_false_iff, beq_eq_false_iff_ne, UInt8.lt_iff_toNat_lt,
                                UInt8.reduceToNat, and_true]
                              omega
                            obtain ⟨cps'', hcps''⟩ : ∃ cps'', utf8DecodeAll tail = .ok cps'' := by
                              rw [utf8DecodeAll_of_ok (utf8Decode_ascii (hdigit x hall.1).1 _),
                                utf8DecodeAll_of_ok (utf8Decode_ascii (hdigit y hall.2).1 _)] at hcps'
                              cases htail : utf8DecodeAll tail with
                              | error e => rw [htail] at hcps'; cases hcps'
                              | ok cps'' => exact ⟨cps'', rfl⟩
                            rw [List.mem_cons, List.mem_cons] at hrest
                            rcases hrest with rfl | rfl | hrest
                            · exact (hdigit _ hall.1).2
                            · exact (hdigit _ hall.2).2
                            · simp only [List.length_cons] at hlt hn
                              exact ih tail.length (by omega) hcps'' h rfl ch hrest hlow
                        · exact ih rest.length (by omega) hcps' h rfl ch hrest hlow
                  · rename_i h'
                    rw [hunchecked] at h'
                    cases h'

/-- The text of an opaque host is encoded to itself. -/
theorem parseHostText_opaque (hne : input ≠ []) (h : parseOpaqueHost input = .ok host) :
    (∀ b ∈ host, isHostByte b = true) ∧ host ≠ [] ∧ parseHostText host true = .ok (host, .opaqueText) := by
  have hhost := parseOpaqueHost_ne_nil hne h
  rw [parseOpaqueHost, if_neg hne] at h
  split at h
  · cases h
  rename_i hforbidden
  rw [Bool.not_eq_true] at hforbidden
  cases hdecode : utf8DecodeAll input with
  | error e => rw [percentEncodeSet_error hdecode] at h; cases h
  | ok cps =>
      rw [percentEncodeSet_ok holdsHigh_c0Control hdecode] at h
      cases h
      have hbyte (b : UInt8) : (!(keeps c0ControlPercentEncodeSet b && !isForbiddenHostCodePoint b.toNat ||
          isEscapeCharacter b) || (isHostByte b && keeps c0ControlPercentEncodeSet b &&
            !isForbiddenHostCodePoint b.toNat)) = true := by
        revert b
        exact forall_byte (by decide +kernel)
      have hbytes : ∀ b ∈ input.flatMap (encodeByte c0ControlPercentEncodeSet),
          isHostByte b = true ∧ keeps c0ControlPercentEncodeSet b = true ∧ isForbiddenHostCodePoint b.toNat = false := by
        intro b hb
        have hkind : (keeps c0ControlPercentEncodeSet b && !isForbiddenHostCodePoint b.toNat || isEscapeCharacter b) =
            true := by
          rcases mem_encoded hb with ⟨hmem, hkeeps⟩ | hescape
          · rw [hkeeps, not_forbidden_of_opaque hdecode hforbidden b hmem (keeps_ascii holdsHigh_c0Control hkeeps)]
            rfl
          · rw [hescape, Bool.or_true]
        have hb' := hbyte b
        rw [hkind, Bool.not_true, Bool.false_or, Bool.and_eq_true, Bool.and_eq_true, Bool.not_eq_true'] at hb'
        exact ⟨hb'.1.1, hb'.1.2, hb'.2⟩
      refine ⟨fun b hb => (hbytes b hb).1, hhost, ?_⟩
      have hagain := containsForbiddenHostCodePoint_ascii
        (fun b hb => keeps_ascii holdsHigh_c0Control (hbytes b hb).2.1) fun b hb => (hbytes b hb).2.2
      rw [parseHostText, if_neg hhost, if_neg (head?_ne_bracket fun b hb => (hbytes b hb).1), if_pos rfl, parseOpaqueHost,
        if_neg hhost, hagain, if_neg Bool.false_ne_true,
        percentEncodeSet_of_keeps holdsHigh_c0Control fun b hb => (hbytes b hb).2.1]
      rfl

example : parseOpaqueHost (ascii "a%b") = .ok (ascii "a%b") := by decide +kernel

end Rad.Url
