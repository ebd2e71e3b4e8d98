import Rad.Url.Lemmas.Encode

/-!
# Escapes are decoded

A text that is decoded consists of unreserved characters and of escapes, and both decoders find the same escapes in it.
-/

namespace Rad.Url

variable {f : Nat → Bool} {cp : Nat} {input rest bytes decoded : Bytes}

/-! ## The bytes of a character -/

theorem utf8Encode_eq_cons (hvalid : isValidCodepoint cp = true) :
    ∃ b conts, utf8Encode cp = b :: conts ∧ utf8SequenceSize b = conts.length + 1 ∧
      ∀ c ∈ conts, isUtf8ContinuationByte c = true := by
  obtain ⟨b, conts, htext, hsize, hconts, -⟩ := utf8Decode_ok (utf8Decode_utf8Encode hvalid [])
  rw [List.append_nil, List.append_nil] at htext
  exact ⟨b, conts, htext, hsize, List.all_eq_true.1 hconts⟩

theorem utf8SequenceSize_continuation {b : UInt8} (h : isUtf8ContinuationByte b = true) : utf8SequenceSize b = 0 := by
  have hall : ∀ n < 256, isUtf8ContinuationByte (UInt8.ofNat n) = true → utf8SequenceSize (UInt8.ofNat n) = 0 := by
    decide +kernel
  have hb := hall b.toNat b.toNat_lt
  rw [UInt8.ofNat_toNat] at hb
  exact hb h

/-! ## What is decoded -/

/-- What is outside of the escapes. -/
def plainCharacters (input : Bytes) : Bytes :=
  match input with
  | [] => []
  | ch :: input => if ch = 0x25 then plainCharacters (input.drop 2) else ch :: plainCharacters input
termination_by input.length
decreasing_by
  · exact Nat.lt_succ_of_le (List.drop_sublist 2 input).length_le
  · exact Nat.lt_succ_self _

theorem plainCharacters_percent (x y : UInt8) (rest : Bytes) :
    plainCharacters (0x25 :: x :: y :: rest) = plainCharacters rest := by
  rw [plainCharacters, if_pos rfl, List.drop_succ_cons, List.drop_succ_cons, List.drop_zero]

theorem plainCharacters_cons {ch : UInt8} (h : ch ≠ 0x25) (rest : Bytes) :
    plainCharacters (ch :: rest) = ch :: plainCharacters rest := by
  rw [plainCharacters, if_neg h]

theorem isUnreservedCharacter_low {cp : Nat} (h : isUnreservedCharacter cp = true) : cp < 0x80 ∧ cp ≠ 0x25 := by
  simp only [isUnreservedCharacter, Bool.or_eq_true, Bool.and_eq_true, decide_eq_true_eq, beq_iff_eq] at h
  omega

/-- An unreserved character is a byte without a sign. -/
theorem charCodepoint_unreserved {ch : UInt8} (h : isUnreservedCharacter (charCodepoint ch) = true) :
    charCodepoint ch = ch.toNat ∧ ch ≠ 0x25 := by
  have hlow := isUnreservedCharacter_low h
  have heq : charCodepoint ch = ch.toNat := by
    rw [charCodepoint] at hlow ⊢
    split
    · rfl
    · rename_i hhigh
      rw [if_neg hhigh] at hlow
      omega
  refine ⟨heq, ?_⟩
  rintro rfl
  exact hlow.2 heq

theorem decodePercentEncodedByte_ok {byte : UInt8} (h : decodePercentEncodedByte input = .ok (byte, rest)) :
    ∃ x y, input = x :: y :: rest := by
  match input with
  | [] => cases h
  | [_] => cases h
  | x :: y :: input =>
      rw [decodePercentEncodedByte] at h
      split at h
      · cases h
        exact ⟨x, y, rfl⟩
      · cases h

theorem decodePercentEncodedBytes_ok {n : Nat} (h : decodePercentEncodedBytes n input = .ok (bytes, rest)) :
    bytes.length = n ∧ input.length = 3 * n + rest.length ∧ plainCharacters input = plainCharacters rest := by
  induction n generalizing input bytes with
  | zero =>
      cases h
      exact ⟨rfl, by omega, rfl⟩
  | succ n ih =>
      cases input with
      | nil => cases h
      | cons ch input =>
          rw [decodePercentEncodedBytes] at h
          split at h
          · cases h
          rename_i hch
          rw [ne_eq, not_not] at hch
          cases hbyte : decodePercentEncodedByte input with
          | error e => rw [hbyte] at h; cases h
          | ok r =>
              obtain ⟨byte, input'⟩ := r
              obtain ⟨x, y, rfl⟩ := decodePercentEncodedByte_ok hbyte
              rw [hbyte] at h
              simp only [Except.bind] at h
              cases hbytes : decodePercentEncodedBytes n input' with
              | error e => rw [hbytes] at h; cases h
              | ok r =>
                  obtain ⟨bytes', rest'⟩ := r
                  rw [hbytes] at h
                  cases h
                  obtain ⟨hlength, hinput, hplain⟩ := ih hbytes
                  refine ⟨by rw [List.length_cons, hlength], ?_, by rw [hch, plainCharacters_percent, hplain]⟩
                  simp only [List.length_cons, hinput]
                  omega

/-- What the first loop finds behind a percent sign the second one finds again. -/
theorem decodeEscape_ok (h : decodeEscape input = .ok (bytes, rest)) :
    ∃ byteValue tail more, decodePercentEncodedByte input = .ok (byteValue, tail) ∧
      ¬(utf8SequenceSize byteValue = 0 ∨ utf8SequenceSize byteValue > 4) ∧
      decodePercentEncodedBytes (utf8SequenceSize byteValue - 1) tail = .ok (more, rest) ∧ bytes = byteValue :: more := by
  rw [decodeEscape] at h
  split at h
  · cases h
  cases hbyte : decodePercentEncodedByte input with
  | error e => rw [hbyte] at h; cases h
  | ok r =>
      obtain ⟨byteValue, tail⟩ := r
      rw [hbyte] at h
      simp only [Except.bind] at h
      split at h
      · cases h
      rename_i hsize
      split at h
      · rename_i hone
        cases h
        exact ⟨byteValue, rest, [], rfl, hsize, by rw [hone]; rfl, rfl⟩
      split at h
      · cases h
      cases hbytes : decodePercentEncodedBytes (utf8SequenceSize byteValue - 1) tail with
      | error e => rw [hbytes] at h; cases h
      | ok r =>
          obtain ⟨more, tail'⟩ := r
          rw [hbytes] at h
          simp only at h
          split at h
          · cases h
            exact ⟨byteValue, tail, more, rfl, hsize, hbytes, rfl⟩
          · cases h

theorem decodeEscape_plain (h : decodeEscape input = .ok (bytes, rest)) :
    plainCharacters (0x25 :: input) = plainCharacters rest ∧ bytes ≠ [] ∧
      bytes.length < (0x25 :: input).length - rest.length := by
  obtain ⟨byteValue, tail, more, hbyte, -, hmore, rfl⟩ := decodeEscape_ok h
  obtain ⟨x, y, rfl⟩ := decodePercentEncodedByte_ok hbyte
  obtain ⟨hlength, htail, hplain⟩ := decodePercentEncodedBytes_ok hmore
  refine ⟨by rw [plainCharacters_percent, hplain], List.cons_ne_nil _ _, ?_⟩
  simp only [List.length_cons]
  omega

/-- A text that is decoded: an unreserved character, or an escape, in front of another one. -/
theorem doPercentDecode_cases {ch : UInt8} (h : doPercentDecode isUnreservedCharacter (ch :: input) = .ok decoded) :
    (isUnreservedCharacter ch.toNat = true ∧ charCodepoint ch = ch.toNat ∧ ch ≠ 0x25 ∧
        ∃ tail, decoded = ch :: tail ∧ doPercentDecode isUnreservedCharacter input = .ok tail) ∨
      ch = 0x25 ∧ ∃ bytes rest tail, decodeEscape input = .ok (bytes, rest) ∧ decoded = bytes ++ tail ∧
        doPercentDecode isUnreservedCharacter rest = .ok tail := by
  rw [doPercentDecode] at h
  split at h
  · rename_i hunreserved
    obtain ⟨heq, hne⟩ := charCodepoint_unreserved hunreserved
    cases htail : doPercentDecode isUnreservedCharacter input with
    | error e => rw [htail] at h; cases h
    | ok tail =>
        rw [htail] at h
        exact .inl ⟨heq ▸ hunreserved, heq, hne, tail, (Except.ok.inj h).symm, rfl⟩
  split at h
  · cases h
  rename_i hch
  rw [ne_eq, not_not] at hch
  split at h
  · rename_i bytes rest hescape
    cases htail : doPercentDecode isUnreservedCharacter rest with
    | error e => rw [htail] at h; cases h
    | ok tail =>
        rw [htail] at h
        exact .inr ⟨hch, bytes, rest, tail, hescape, (Except.ok.inj h).symm, htail⟩
  · cases h

theorem getPerecentDecodedSize_eq (input : Bytes) :
    getPerecentDecodedSize f input = (doPercentDecode f input).map List.length := by
  induction hn : input.length using Nat.strongRecOn generalizing input with
  | ind n ih =>
      cases input with
      | nil =>
          rw [getPerecentDecodedSize, doPercentDecode]
          rfl
      | cons ch input =>
          rw [List.length_cons] at hn
          rw [getPerecentDecodedSize, doPercentDecode]
          split
          · rw [ih _ (by omega) input rfl]
            cases doPercentDecode f input with
            | error e => rfl
            | ok tail => simp only [Except.map, List.length_cons, Nat.add_comm]
          split
          · rfl
          split
          · rename_i bytes rest hescape
            have hlt := decodeEscape_length hescape
            rw [ih _ (by omega) rest rfl]
            cases doPercentDecode f rest with
            | error e => rfl
            | ok tail => simp only [Except.map, List.length_append]
          · rfl

/-- A text becomes shorter unless there are no escapes in it. -/
theorem length_decoded (h : doPercentDecode isUnreservedCharacter input = .ok decoded) :
    decoded.length ≤ input.length ∧ (decoded.length = input.length ↔ 0x25 ∉ input) ∧
      (decoded = [] → input = []) ∧ (0x25 ∉ input → decoded = input) := by
  induction hn : input.length using Nat.strongRecOn generalizing input decoded with
  | ind n ih =>
      cases input with
      | nil =>
          rw [doPercentDecode] at h
          cases h
          exact ⟨hn ▸ Nat.le_refl _, iff_of_true hn (by simp), fun _ => rfl, fun _ => rfl⟩
      | cons ch input =>
          rw [List.length_cons] at hn
          rcases doPercentDecode_cases h with ⟨-, -, hne, tail, rfl, htail⟩ |
            ⟨rfl, bytes, rest, tail, hescape, rfl, htail⟩
          · obtain ⟨hle, hiff, -, hsame⟩ := ih _ (by omega) htail rfl
            have hmem : 0x25 ∉ ch :: input ↔ 0x25 ∉ input := by
              rw [List.mem_cons, not_or]
              exact and_iff_right fun h => hne h.symm
            refine ⟨by rw [List.length_cons]; omega, ?_, (by simp), fun h => by rw [hsame (hmem.1 h)]⟩
            rw [hmem, ← hiff, List.length_cons]
            omega
          · have hlt := decodeEscape_length hescape
            obtain ⟨hle, -, -⟩ := ih _ (by omega) htail rfl
            obtain ⟨-, hsome, hlength⟩ := decodeEscape_plain hescape
            rw [List.length_cons] at hlength
            have hmem : ¬0x25 ∉ (0x25 : UInt8) :: input := fun h => h List.mem_cons_self
            rw [List.length_append]
            refine ⟨by omega, iff_of_false (by omega) hmem, fun hnil => ?_, fun h => absurd h hmem⟩
            exact absurd (List.append_eq_nil_iff.1 hnil).1 hsome

theorem hexCharToDecimal_unreserved {x v : UInt8} (h : hexCharToDecimal x = some v) : isUnreservedCharacter x.toNat = true := by
  have hall : ∀ n < 256, (hexCharToDecimal (UInt8.ofNat n)).isSome = true → isUnreservedCharacter n = true := by
    decide +kernel
  have hx := hall x.toNat x.toNat_lt
  rw [UInt8.ofNat_toNat, h] at hx
  exact hx rfl

theorem decodePercentEncodedByte_unreserved {byte : UInt8} (h : decodePercentEncodedByte input = .ok (byte, rest)) :
    ∀ ch ∈ input, isUnreservedCharacter ch.toNat = true ∨ ch ∈ rest := by
  obtain ⟨x, y, rfl⟩ := decodePercentEncodedByte_ok h
  rw [decodePercentEncodedByte] at h
  split at h
  · rename_i hx hy
    intro ch hch
    rcases List.mem_cons.1 hch with rfl | hch
    · exact .inl (hexCharToDecimal_unreserved hx)
    rcases List.mem_cons.1 hch with rfl | hch
    · exact .inl (hexCharToDecimal_unreserved hy)
    · exact .inr hch
  · cases h

theorem decodePercentEncodedBytes_unreserved {n : Nat} (h : decodePercentEncodedBytes n input = .ok (bytes, rest)) :
    ∀ ch ∈ input, ch = 0x25 ∨ isUnreservedCharacter ch.toNat = true ∨ ch ∈ rest := by
  induction n generalizing input bytes with
  | zero =>
      cases h
      exact fun ch hch => .inr (.inr hch)
  | succ n ih =>
      cases input with
      | nil => cases h
      | cons ch input =>
          rw [decodePercentEncodedBytes] at h
          split at h
          · cases h
          rename_i hpercent
          rw [ne_eq, not_not] at hpercent
          cases hbyte : decodePercentEncodedByte input with
          | error e => rw [hbyte] at h; cases h
          | ok r =>
              rw [hbyte] at h
              simp only [Except.bind] at h
              cases hbytes : decodePercentEncodedBytes n r.2 with
              | error e => rw [hbytes] at h; cases h
              | ok r' =>
                  rw [hbytes] at h
                  cases h
                  refine List.forall_mem_cons.2 ⟨.inl hpercent, fun c hc => ?_⟩
                  exact (decodePercentEncodedByte_unreserved hbyte c hc).elim (fun hkept => .inr (.inl hkept)) (ih hbytes c)

/-- A text that is decoded has no other characters than unreserved ones and percent signs. -/
theorem unreserved_of_decoded (h : doPercentDecode isUnreservedCharacter input = .ok decoded) :
    ∀ ch ∈ input, ch = 0x25 ∨ isUnreservedCharacter ch.toNat = true := by
  induction hn : input.length using Nat.strongRecOn generalizing input decoded with
  | ind n ih =>
      cases input with
      | nil => exact nofun
      | cons ch input =>
          rw [List.length_cons] at hn
          rcases doPercentDecode_cases h with ⟨hkept, -, -, tail, -, htail⟩ |
            ⟨rfl, bytes, rest, tail, hescape, -, htail⟩
          · exact List.forall_mem_cons.2 ⟨.inr hkept, ih _ (by omega) htail rfl⟩
          · have hlt := decodeEscape_length hescape
            obtain ⟨byteValue, rest', more, hbyte, -, hmore, -⟩ := decodeEscape_ok hescape
            refine List.forall_mem_cons.2 ⟨.inl rfl, fun c hc => ?_⟩
            rcases decodePercentEncodedByte_unreserved hbyte c hc with hkept | hc
            · exact .inr hkept
            · rcases decodePercentEncodedBytes_unreserved hmore c hc with hpercent | hkept | hc
              · exact .inl hpercent
              · exact .inr hkept
              · exact ih _ (by omega) htail rfl c hc

theorem ascii_of_decoded (h : doPercentDecode isUnreservedCharacter input = .ok decoded) : ∀ ch ∈ input, ch < 0x80 :=
  fun ch hch => by
    rcases unreserved_of_decoded h ch hch with rfl | hkept
    · decide
    · exact UInt8.lt_iff_toNat_lt.2 (isUnreservedCharacter_low hkept).1

theorem plain_unreserved (h : doPercentDecode isUnreservedCharacter input = .ok decoded) :
    ∀ ch ∈ plainCharacters input, isUnreservedCharacter ch.toNat = true := by
  induction hn : input.length using Nat.strongRecOn generalizing input decoded with
  | ind n ih =>
      cases input with
      | nil =>
          rw [plainCharacters]
          exact nofun
      | cons ch input =>
          rw [List.length_cons] at hn
          rcases doPercentDecode_cases h with ⟨hkept, -, hne, tail, -, htail⟩ |
            ⟨rfl, bytes, rest, tail, hescape, -, htail⟩
          · rw [plainCharacters_cons hne]
            exact List.forall_mem_cons.2 ⟨hkept, ih _ (by omega) htail rfl⟩
          · have hlt := decodeEscape_length hescape
            rw [(decodeEscape_plain hescape).1]
            exact ih _ (by omega) htail rfl

/-! ## Escapes of characters -/

/-- An escape of a byte, with digits of either case. -/
def IsEscape (v : UInt8) (escape : Bytes) : Prop :=
  ∃ x y hi lo, escape = [0x25, x, y] ∧ hexCharToDecimal x = some hi ∧ hexCharToDecimal y = some lo ∧ hi * 16 + lo = v

theorem IsEscape.decode {v : UInt8} {escape : Bytes} (h : IsEscape v escape) (rest : Bytes) :
    ∃ x y, escape = [0x25, x, y] ∧ decodePercentEncodedByte (x :: y :: rest) = .ok (v, rest) := by
  obtain ⟨x, y, hi, lo, rfl, hx, hy, rfl⟩ := h
  exact ⟨x, y, rfl, by rw [decodePercentEncodedByte, hx, hy]⟩

theorem decodePercentEncodedBytes_escapes {vs : Bytes} {escapes : List Bytes} (h : List.Forall₂ IsEscape vs escapes)
    (rest : Bytes) :
    decodePercentEncodedBytes vs.length (escapes.flatten ++ rest) = .ok (vs, rest) ∧
      (escapes.flatten ++ rest).length = vs.length * 3 + rest.length := by
  induction h with
  | nil => exact ⟨rfl, by rw [List.flatten_nil, List.nil_append, List.length_nil, Nat.zero_mul, Nat.zero_add]⟩
  | @cons v escape vs escapes hv hvs ih =>
      obtain ⟨x, y, rfl, hdecode⟩ := hv.decode (escapes.flatten ++ rest)
      obtain ⟨hbytes, hlength⟩ := ih
      simp only [List.flatten_cons, List.cons_append, List.nil_append, List.length_cons] at hbytes hlength ⊢
      refine ⟨?_, by omega⟩
      rw [decodePercentEncodedBytes, if_neg (by simp), hdecode]
      simp only [Except.bind, hbytes, Except.map]

theorem decodeEscape_escapes {escapes : List Bytes} (hvalid : isValidCodepoint cp = true)
    (h : List.Forall₂ IsEscape (utf8Encode cp) escapes) (rest : Bytes) :
    ∃ input, escapes.flatten ++ rest = 0x25 :: input ∧ decodeEscape input = .ok (utf8Encode cp, rest) := by
  obtain ⟨v, vs, htext, hsize, -⟩ := utf8Encode_eq_cons hvalid
  have hdecode := utf8Decode_utf8Encode hvalid []
  rw [List.append_nil, htext] at hdecode
  have hle : vs.length + 1 ≤ 4 := by
    have hlength := length_utf8Encode hvalid
    rw [htext, List.length_cons, utf8CodepointSize] at hlength
    repeat' split at hlength
    all_goals omega
  rw [htext] at h ⊢
  cases h with
  | @cons _ escape _ escapes hv hvs =>
      obtain ⟨x, y, rfl, hbyte⟩ := hv.decode (escapes.flatten ++ rest)
      obtain ⟨hbytes, hlength⟩ := decodePercentEncodedBytes_escapes hvs rest
      refine ⟨x :: y :: (escapes.flatten ++ rest), rfl, ?_⟩
      rw [decodeEscape, if_neg (by simp only [List.length_cons]; omega), hbyte]
      simp only [Except.bind, hsize, Nat.add_sub_cancel, Nat.add_one_ne_zero, false_or, hlength]
      rw [if_neg (by omega)]
      cases vs with
      | nil =>
          cases hvs
          rfl
      | cons v' vs =>
          rw [if_neg (by rw [List.length_cons]; omega), if_neg (by omega), hbytes]
          simp only [hdecode]

theorem isEscape_percentByte (v : UInt8) : IsEscape v (percentByte v) := by
  have hall : ∀ n < 256, hexCharToDecimal (hexDigit (UInt8.ofNat n >>> 4)) = some (UInt8.ofNat n >>> 4) ∧
      hexCharToDecimal (hexDigit (UInt8.ofNat n &&& 0x0f)) = some (UInt8.ofNat n &&& 0x0f) ∧
      (UInt8.ofNat n >>> 4) * 16 + (UInt8.ofNat n &&& 0x0f) = UInt8.ofNat n := by decide +kernel
  have hv := hall v.toNat v.toNat_lt
  rw [UInt8.ofNat_toNat] at hv
  exact ⟨_, _, _, _, rfl, hv⟩

theorem forall₂_percentByte (vs : Bytes) : List.Forall₂ IsEscape vs (vs.map percentByte) := by
  induction vs with
  | nil => exact .nil
  | cons v vs ih => exact .cons (isEscape_percentByte v) ih

theorem toNat_ofNat_low {b : UInt8} (h : isUnreservedCharacter b.toNat = true) : charCodepoint b = b.toNat :=
  if_pos (UInt8.lt_iff_toNat_lt.2 (isUnreservedCharacter_low h).1)

theorem doPercentDecode_unreserved {b : UInt8} (h : isUnreservedCharacter b.toNat = true) (t : Bytes) :
    doPercentDecode isUnreservedCharacter (b :: t) = (doPercentDecode isUnreservedCharacter t).map (b :: ·) := by
  rw [doPercentDecode, toNat_ofNat_low h, if_pos h]

theorem doPercentDecode_escapes {escapes : List Bytes} (hvalid : isValidCodepoint cp = true)
    (h : List.Forall₂ IsEscape (utf8Encode cp) escapes) (t : Bytes) :
    doPercentDecode isUnreservedCharacter (escapes.flatten ++ t) =
      (doPercentDecode isUnreservedCharacter t).map (utf8Encode cp ++ ·) := by
  obtain ⟨input, htext, hdecode⟩ := decodeEscape_escapes hvalid h t
  rw [htext, doPercentDecode, if_neg (by decide), if_neg (by simp)]
  split
  · rename_i hescape
    cases hdecode.symm.trans hescape
    rfl
  · rename_i hescape
    cases hdecode.symm.trans hescape

end Rad.Url
