import Rad.Text.Converter
import Rad.Text.UtfTheorems

/-!
# The codecs are lawful

The decoders of UTF-8, UTF-16 and UTF-32 take exactly the encodings of the valid code points, and the texts of such
encodings are the well-formed texts.
-/

namespace Rad

/-! ## Byte orders -/

theorem toNat_bswap16 (v : UInt16) : (bswap16 v).toNat = v.toNat % 0x100 * 0x100 + v.toNat / 0x100 := by
  have hlt := v.toNat_lt
  rw [bswap16, UInt16.toNat_ofNat', Nat.mod_eq_of_lt]
  omega

theorem bswap16_bswap16 (v : UInt16) : bswap16 (bswap16 v) = v := by
  have hlt := v.toNat_lt
  rw [← UInt16.toNat_inj, toNat_bswap16, toNat_bswap16]
  omega

theorem toNat_bswap32 (v : UInt32) :
    (bswap32 v).toNat = v.toNat % 0x100 * 0x1000000 + v.toNat / 0x100 % 0x100 * 0x10000 +
      v.toNat / 0x10000 % 0x100 * 0x100 + v.toNat / 0x1000000 := by
  have hlt := v.toNat_lt
  rw [bswap32, UInt32.toNat_ofNat', Nat.mod_eq_of_lt]
  omega

theorem bytes_of_sum {n a b c d : Nat} (hn : n = d * 0x1000000 + c * 0x10000 + b * 0x100 + a) (ha : a < 0x100)
    (hb : b < 0x100) (hc : c < 0x100) :
    n % 0x100 = a ∧ n / 0x100 % 0x100 = b ∧ n / 0x10000 % 0x100 = c ∧ n / 0x1000000 = d := by
  omega

theorem bswap32_bswap32 (v : UInt32) : bswap32 (bswap32 v) = v := by
  have hlt := v.toNat_lt
  obtain ⟨h0, h1, h2, h3⟩ := bytes_of_sum (toNat_bswap32 v) (by omega) (by omega) (by omega)
  rw [← UInt32.toNat_inj, toNat_bswap32 (bswap32 v), h0, h1, h2, h3]
  omega

theorem ReaderWriter.read_read {υ : Type} {bswap : υ → υ} (h : ∀ v, bswap (bswap v) = v) (host : Endian)
    (rw : ReaderWriter) (v : υ) : rw.read bswap host (rw.read bswap host v) = v := by
  cases rw <;> cases host <;> simp [ReaderWriter.read, readNativeValue, readLeValue, readBeValue, h]

/-! ## UTF-8 -/

theorem utf8DecodeUnchecked_of_decode {t rest : Bytes} {cp : Nat} (h : utf8Decode t = (.ok cp, rest)) :
    utf8DecodeUnchecked t = some (cp, rest) := by
  obtain ⟨b, conts, rfl, hsize, -, hcp, -, -⟩ := utf8Decode_ok h
  have hlong : ¬(conts ++ rest).length < conts.length := by
    rw [List.length_append]
    omega
  simp only [utf8DecodeUnchecked, hsize, Nat.succ_ne_zero, Nat.add_sub_cancel, hlong, or_self, ↓reduceIte,
    List.take_left, List.drop_left, hcp]

theorem utf8_lawful : utf8Codecvt.Lawful where
  decode_iff {t cp rest} := by
    constructor
    · intro h
      obtain ⟨-, -, -, -, -, -, hvalid, -⟩ := utf8Decode_ok h
      exact ⟨hvalid, utf8Encode_of_decode h⟩
    · rintro ⟨hvalid, rfl⟩
      exact utf8Decode_utf8Encode hvalid rest
  decodeUnchecked_encode rest h := utf8DecodeUnchecked_of_decode (utf8Decode_utf8Encode h rest)
  codepointSize_eq {cp} _ := by
    simp only [utf8Codecvt, utf8CodepointSize, utf8Encode]
    split_ifs <;> rfl

theorem utf8_isText_iff {t : Bytes} : utf8_lawful.code.IsText t ↔ Utf8WellFormed t := by
  constructor
  · rintro ⟨cps, h⟩
    induction cps generalizing t with
    | nil =>
        cases h.2
        exact .nil
    | cons cp cps ih =>
        obtain ⟨hvalid, rest, rfl, hrest⟩ := Lib.Code.spells_cons_iff.1 h
        have hdecode := utf8Decode_utf8Encode hvalid []
        rw [List.append_nil] at hdecode
        obtain ⟨row, hrow, hs⟩ := inTable_iff.2 ⟨cp, hdecode⟩
        exact .append hrow hs (ih hrest)
  · intro h
    induction h with
    | nil => exact Lib.Code.isText_nil
    | @append row s t hrow hs _ ih =>
        obtain ⟨cp, hdecode⟩ := inTable_iff.1 ⟨_, hrow, hs⟩
        have hsequence := utf8_lawful.decode_iff.1 (utf8Decode_append hdecode t)
        exact (Lib.Code.isText_iff_of_read (utf8_lawful.code.read_iff.2 hsequence)).2 ih

/-! ### Errors -/

/-- The text begins with a sequence of another size than its code point needs. -/
def Overlong (t : Bytes) : Prop :=
  ∃ b conts rest, t = b :: (conts ++ rest) ∧ utf8SequenceSize b = conts.length + 1 ∧
    conts.all isUtf8ContinuationByte = true ∧ isValidCodepoint (utf8Codepoint (conts.length + 1) b conts) = true ∧
      utf8CodepointSize (utf8Codepoint (conts.length + 1) b conts) ≠ conts.length + 1

theorem not_overlong_nil : ¬Overlong [] := by
  rintro ⟨b, conts, rest, hnil, -⟩
  cases hnil

theorem Overlong.decode {t : Bytes} (h : Overlong t) : (utf8Decode t).1 = .error .illegalByteSequence := by
  obtain ⟨b, conts, rest, rfl, hsize, hconts, hvalid, hne⟩ := h
  have hlong : ¬(conts ++ rest).length + 1 < conts.length + 1 := by
    rw [List.length_append]
    omega
  simp only [utf8Decode, hsize, Nat.succ_ne_zero, ↓reduceIte, hlong, Nat.add_sub_cancel, List.take_left, hconts,
    Bool.not_true, Bool.false_eq_true, hvalid, ne_eq, hne, not_false_eq_true]

/-- The text that the decoder leaves behind an error. -/
theorem utf8Decode_error {t rest : Bytes} {e : Errc} (h : utf8Decode t = (.error e, rest)) :
    (Overlong t ∧ 0 < utf8SequenceSize (t.headD 0) ∧ rest = t.take (t.length - utf8SequenceSize (t.headD 0))) ∨
      (¬Overlong t ∧ rest = t) := by
  cases t with
  | nil =>
      cases h
      exact .inr ⟨not_overlong_nil, rfl⟩
  | cons b t =>
      have hover {size : Nat} (hsize : utf8SequenceSize b = size) : Overlong (b :: t) →
          size ≤ t.length + 1 ∧ (t.take (size - 1)).all isUtf8ContinuationByte = true ∧
            isValidCodepoint (utf8Codepoint size b (t.take (size - 1))) = true ∧
              utf8CodepointSize (utf8Codepoint size b (t.take (size - 1))) ≠ size := by
        rintro ⟨b', conts, rest', htext, hsize', hconts, hvalid, hne⟩
        cases htext
        rw [hsize] at hsize'
        subst hsize'
        rw [Nat.add_sub_cancel, List.take_left, List.length_append]
        exact ⟨by omega, hconts, hvalid, hne⟩
      rw [utf8Decode] at h
      dsimp only at h
      split at h
      · rename_i hzero
        cases h
        refine .inr ⟨?_, rfl⟩
        rintro ⟨b', conts, rest', htext, hsize, -⟩
        cases htext
        omega
      split at h
      · rename_i hshort
        have hnot : ¬Overlong (b :: t) := fun ho => absurd (hover rfl ho).1 (by omega)
        split at h
        · cases h
          exact .inr ⟨hnot, rfl⟩
        · cases h
          exact .inr ⟨hnot, rfl⟩
      rename_i hzero hlong
      split at h
      · rename_i hconts
        cases h
        refine .inr ⟨fun ho => ?_, rfl⟩
        rw [(hover rfl ho).2.1] at hconts
        cases hconts
      split at h
      · rename_i hvalid
        cases h
        refine .inr ⟨fun ho => ?_, rfl⟩
        rw [(hover rfl ho).2.2.1] at hvalid
        cases hvalid
      split at h
      · rename_i hconts hvalid hsize
        cases h
        have hlen : (t.take (utf8SequenceSize b - 1)).length + 1 = utf8SequenceSize b := by
          rw [List.length_take]
          omega
        simp only [Bool.not_eq_true', Bool.not_eq_false] at hconts hvalid
        refine .inl ⟨⟨b, t.take (utf8SequenceSize b - 1), t.drop (utf8SequenceSize b - 1), ?_, hlen.symm, hconts, ?_, ?_⟩,
          Nat.pos_of_ne_zero hzero, rfl⟩
        · rw [List.take_append_drop]
        · rw [hlen]
          exact hvalid
        · rw [hlen]
          exact hsize
      · cases h

theorem utf8Decode_error_length {t rest : Bytes} {e : Errc} (h : utf8Decode t = (.error e, rest)) :
    rest.length ≤ t.length := by
  rcases utf8Decode_error h with ⟨-, -, rfl⟩ | ⟨-, rfl⟩
  · exact List.length_take_le' _ _
  · exact Nat.le_refl _

theorem utf8_skips : utf8Codecvt.Skips := ⟨utf8Decode_error_length, by decide⟩

/-! ## UTF-16 -/

/-- The lead of a unit, without the ten bits of a surrogate. -/
theorem and_surrogateValueMask (w : UInt16) : (w &&& 0xfc00).toNat = w.toNat / 1024 * 1024 := by
  have hlt := w.toNat_lt
  have hmask : w.toNat &&& 0xfc00 = w.toNat >>> 10 <<< 10 := by
    apply Nat.eq_of_testBit_eq
    intro i
    rw [Nat.testBit_and, show 0xfc00 = (2 ^ 6 - 1) <<< 10 from rfl, Nat.testBit_shiftLeft,
      Nat.testBit_two_pow_sub_one, Nat.testBit_shiftLeft, Nat.testBit_shiftRight]
    by_cases hlow : 10 ≤ i
    · by_cases hhigh : i - 10 < 6
      · simp [hlow, hhigh]
      · have hzero : w.toNat.testBit i = false :=
          Nat.testBit_lt_two_pow (Nat.lt_of_lt_of_le hlt (Nat.pow_le_pow_right (by omega) (by omega)))
        simp [hlow, hhigh, hzero]
    · simp [hlow]
  rw [UInt16.toNat_and, UInt16.toNat_ofNat, hmask, Nat.shiftLeft_eq, Nat.shiftRight_eq_div_pow]

theorem isHighSurrogate_iff {w : UInt16} : w &&& 0xfc00 = 0xd800 ↔ 0xd800 ≤ w.toNat ∧ w.toNat ≤ 0xdbff := by
  rw [← UInt16.toNat_inj, and_surrogateValueMask]
  simp only [UInt16.reduceToNat]
  omega

theorem isLowSurrogate_iff {w : UInt16} : w &&& 0xfc00 = 0xdc00 ↔ 0xdc00 ≤ w.toNat ∧ w.toNat ≤ 0xdfff := by
  rw [← UInt16.toNat_inj, and_surrogateValueMask]
  simp only [UInt16.reduceToNat]
  omega

theorem utf16Codepoint_eq (w1 w2 : UInt16) :
    utf16Codepoint w1 w2 = w1.toNat % 1024 * 1024 + w2.toNat % 1024 + 0x10000 := by
  have hlow : w2.toNat % 1024 < 2 ^ 10 := Nat.mod_lt _ (by omega)
  have hand : ∀ w : UInt16, (w &&& 0x3ff).toNat = w.toNat % 1024 := by
    intro w
    rw [UInt16.toNat_and]
    exact Nat.and_two_pow_sub_one_eq_mod w.toNat 10
  rw [utf16Codepoint, hand, hand, ← Nat.shiftLeft_add_eq_or_of_lt hlow, Nat.shiftLeft_eq]

/-- The table of the forms of UTF-16: a unit that is no surrogate, or a high one and a low one. -/
inductive Utf16WellFormed : List UInt16 → Prop where
  | nil : Utf16WellFormed []
  | unit {w : UInt16} {t : List UInt16} (hw : w < 0xd800 ∨ 0xdfff < w) (ht : Utf16WellFormed t) :
      Utf16WellFormed (w :: t)
  | pair {w1 w2 : UInt16} {t : List UInt16} (hhigh : 0xd800 ≤ w1 ∧ w1 ≤ 0xdbff) (hlow : 0xdc00 ≤ w2 ∧ w2 ≤ 0xdfff)
      (ht : Utf16WellFormed t) : Utf16WellFormed (w1 :: w2 :: t)

section

variable {read : UInt16 → UInt16} {p p1 p2 : UInt16} {t rest : List UInt16} {cp : Nat}

theorem utf16Decode_unit (h : (read p).toNat < 0xd800 ∨ 0xdfff < (read p).toNat) :
    utf16Decode read (p :: t) = (.ok (read p).toNat, t) ∧
      utf16DecodeUnchecked read (p :: t) = some ((read p).toNat, t) := by
  have hlow : ¬read p &&& 0xfc00 = 0xdc00 := fun h' => by
    have := isLowSurrogate_iff.1 h'
    omega
  have hhigh : ¬read p &&& 0xfc00 = 0xd800 := fun h' => by
    have := isHighSurrogate_iff.1 h'
    omega
  simp only [utf16Decode, utf16DecodeUnchecked, hlow, hhigh, ↓reduceIte, ne_eq, not_false_eq_true, and_self]

theorem utf16Decode_pair (hhigh : 0xd800 ≤ (read p1).toNat ∧ (read p1).toNat ≤ 0xdbff)
    (hlow : 0xdc00 ≤ (read p2).toNat ∧ (read p2).toNat ≤ 0xdfff) :
    utf16Decode read (p1 :: p2 :: t) = (.ok (utf16Codepoint (read p1) (read p2)), t) ∧
      utf16DecodeUnchecked read (p1 :: p2 :: t) = some (utf16Codepoint (read p1) (read p2), t) := by
  have hne : ¬(0xd800 : UInt16) = 0xdc00 := by decide
  have hvalid : isValidCodepoint (utf16Codepoint (read p1) (read p2)) = true := by
    rw [isValidCodepoint_iff, utf16Codepoint_eq]
    omega
  simp only [utf16Decode, utf16DecodeUnchecked, isHighSurrogate_iff.2 hhigh, isLowSurrogate_iff.2 hlow, hne, hvalid,
    ↓reduceIte, ne_eq, not_true_eq_false, Bool.not_true, Bool.false_eq_true, and_self]

/-- What is decoded is a unit that is no surrogate, or a pair. -/
theorem utf16Decode_ok (h : utf16Decode read t = (.ok cp, rest)) :
    (∃ p, t = p :: rest ∧ ((read p).toNat < 0xd800 ∨ 0xdfff < (read p).toNat) ∧ cp = (read p).toNat) ∨
      ∃ p1 p2, t = p1 :: p2 :: rest ∧ (0xd800 ≤ (read p1).toNat ∧ (read p1).toNat ≤ 0xdbff) ∧
        (0xdc00 ≤ (read p2).toNat ∧ (read p2).toNat ≤ 0xdfff) ∧ cp = utf16Codepoint (read p1) (read p2) := by
  cases t with
  | nil => cases h
  | cons p t =>
      simp only [utf16Decode, ne_eq, isLowSurrogate_iff, isHighSurrogate_iff] at h
      split at h
      · cases h
      split at h
      · cases h
        exact .inl ⟨p, rfl, by omega, rfl⟩
      cases t with
      | nil => cases h
      | cons p2 t =>
          simp only at h
          split at h
          · cases h
          split at h
          · cases h
          · cases h
            exact .inr ⟨p, p2, rfl, by omega, by omega, rfl⟩

/-! ### The encoder -/

variable {write : UInt16 → UInt16} (hread : ∀ v, read (write v) = v) (hwrite : ∀ v, write (read v) = v)

include hread in
theorem utf16Decode_utf16Encode (h : isValidCodepoint cp) (rest : List UInt16) :
    utf16Decode read (utf16Encode write cp ++ rest) = (.ok cp, rest) ∧
      utf16DecodeUnchecked read (utf16Encode write cp ++ rest) = some (cp, rest) := by
  have hcp := isValidCodepoint_iff.1 h
  rw [utf16Encode]
  split
  · have hw : (read (write (.ofNat cp))).toNat = cp := by
      rw [hread, UInt16.toNat_ofNat', Nat.mod_eq_of_lt]
      omega
    rw [List.singleton_append]
    have hunit := @utf16Decode_unit read (write (.ofNat cp)) rest (by omega)
    rwa [hw] at hunit
  · have hshift : (cp - 0x10000) >>> 10 = (cp - 0x10000) / 1024 := Nat.shiftRight_eq_div_pow _ 10
    have hand : (cp - 0x10000) &&& 0x3ff = (cp - 0x10000) % 1024 := Nat.and_two_pow_sub_one_eq_mod _ 10
    have hw1 : (read (write (0xd800 + .ofNat ((cp - 0x10000) >>> 10)))).toNat = 0xd800 + (cp - 0x10000) / 1024 := by
      rw [hread, UInt16.toNat_add, UInt16.toNat_ofNat', hshift]
      simp only [UInt16.reduceToNat]
      omega
    have hw2 : (read (write (0xdc00 + .ofNat ((cp - 0x10000) &&& 0x3ff)))).toNat =
        0xdc00 + (cp - 0x10000) % 1024 := by
      rw [hread, UInt16.toNat_add, UInt16.toNat_ofNat', hand]
      simp only [UInt16.reduceToNat]
      omega
    have hpair := @utf16Decode_pair read (write (0xd800 + .ofNat ((cp - 0x10000) >>> 10)))
      (write (0xdc00 + .ofNat ((cp - 0x10000) &&& 0x3ff))) rest (by omega) (by omega)
    have hsum : utf16Codepoint (read (write (0xd800 + .ofNat ((cp - 0x10000) >>> 10))))
        (read (write (0xdc00 + .ofNat ((cp - 0x10000) &&& 0x3ff)))) = cp := by
      rw [utf16Codepoint_eq, hw1, hw2]
      omega
    rwa [hsum] at hpair

include hwrite in
theorem utf16Encode_of_decode (h : utf16Decode read t = (.ok cp, rest)) :
    isValidCodepoint cp ∧ t = utf16Encode write cp ++ rest := by
  rcases utf16Decode_ok h with ⟨p, rfl, hp, rfl⟩ | ⟨p1, p2, rfl, hp1, hp2, rfl⟩
  · have hlt := (read p).toNat_lt
    refine ⟨isValidCodepoint_iff.2 (by omega), ?_⟩
    rw [utf16Encode, if_pos (by omega), UInt16.ofNat_toNat, hwrite, List.singleton_append]
  · rw [isValidCodepoint_iff, utf16Codepoint_eq]
    refine ⟨by omega, ?_⟩
    have hshift := Nat.shiftRight_eq_div_pow ((read p1).toNat % 1024 * 1024 + (read p2).toNat % 1024) 10
    have hand := Nat.and_two_pow_sub_one_eq_mod ((read p1).toNat % 1024 * 1024 + (read p2).toNat % 1024) 10
    have hw1 : (0xd800 : UInt16) + .ofNat (((read p1).toNat % 1024 * 1024 + (read p2).toNat % 1024) >>> 10) = read p1 := by
      rw [← UInt16.toNat_inj, UInt16.toNat_add, UInt16.toNat_ofNat', hshift]
      simp only [UInt16.reduceToNat]
      omega
    have hw2 : (0xdc00 : UInt16) + .ofNat (((read p1).toNat % 1024 * 1024 + (read p2).toNat % 1024) &&& 0x3ff) =
        read p2 := by
      rw [← UInt16.toNat_inj, UInt16.toNat_add, UInt16.toNat_ofNat', hand]
      simp only [UInt16.reduceToNat]
      omega
    rw [utf16Encode, if_neg (by omega), Nat.add_sub_cancel, hw1, hw2, hwrite, hwrite, List.cons_append,
      List.singleton_append]

end

/-- A codec for a pair of units is the one that JSON escapes use. -/
theorem utf16Decode_eq_decodePair (w1 w2 : UInt16) :
    (utf16Decode id [w1, w2]).1 = utf16DecodePair w1.toNat w2.toNat := by
  have h1 := w1.toNat_lt
  have h2 := w2.toNat_lt
  simp only [utf16Decode, id, ne_eq, isLowSurrogate_iff, isHighSurrogate_iff, utf16DecodePair, utf16Codepoint_eq]
  have e1 : (0xdc00 ≤ w1.toNat ∧ w1.toNat ≤ 0xdfff) ↔ w1.toNat / 1024 = 0xdc00 / 1024 := by omega
  have e2 : (0xd800 ≤ w1.toNat ∧ w1.toNat ≤ 0xdbff) ↔ w1.toNat / 1024 = 0xd800 / 1024 := by omega
  have e3 : (0xdc00 ≤ w2.toNat ∧ w2.toNat ≤ 0xdfff) ↔ w2.toNat / 1024 = 0xdc00 / 1024 := by omega
  simp only [e1, e2, e3]
  split_ifs <;> simp_all

theorem utf16_lawful (host : Endian) (rw : ReaderWriter) : (utf16Codecvt host rw).Lawful where
  decode_iff {t cp rest} := by
    constructor
    · exact utf16Encode_of_decode (rw.read_read bswap16_bswap16 host)
    · rintro ⟨hvalid, rfl⟩
      exact (utf16Decode_utf16Encode (rw.read_read bswap16_bswap16 host) hvalid rest).1
  decodeUnchecked_encode rest h := (utf16Decode_utf16Encode (rw.read_read bswap16_bswap16 host) h rest).2
  codepointSize_eq {cp} _ := by
    simp only [utf16Codecvt, utf16CodepointSize, utf16Encode]
    split_ifs <;> rfl

theorem utf16_isText_iff {host : Endian} {rw : ReaderWriter} {t : List UInt16} :
    (utf16_lawful host rw).code.IsText t ↔ Utf16WellFormed (t.map (rw.read bswap16 host)) := by
  have hlt : ∀ w : UInt16, (w < 0xd800 ∨ 0xdfff < w ↔ w.toNat < 0xd800 ∨ 0xdfff < w.toNat) ∧
      (0xd800 ≤ w ∧ w ≤ 0xdbff ↔ 0xd800 ≤ w.toNat ∧ w.toNat ≤ 0xdbff) ∧
      (0xdc00 ≤ w ∧ w ≤ 0xdfff ↔ 0xdc00 ≤ w.toNat ∧ w.toNat ≤ 0xdfff) := by
    intro w
    simp only [UInt16.lt_iff_toNat_lt, UInt16.le_iff_toNat_le, UInt16.reduceToNat, and_self]
  have hdecode : ∀ {t cp rest}, utf16Decode (rw.read bswap16 host) t = (.ok cp, rest) →
      (utf16_lawful host rw).code.read t = some (cp, rest) := fun h =>
    (utf16_lawful host rw).code.read_iff.2 ((utf16_lawful host rw).decode_iff.1 h)
  constructor
  · rintro ⟨cps, h⟩
    induction cps generalizing t with
    | nil =>
        cases h.2
        exact .nil
    | cons cp cps ih =>
        obtain ⟨hvalid, rest, rfl, hrest⟩ := Lib.Code.spells_cons_iff.1 h
        have hword : utf16Decode (rw.read bswap16 host) ((utf16_lawful host rw).code.word cp ++ rest) = (.ok cp, rest) :=
          (utf16_lawful host rw).decode_iff.2 ⟨hvalid, rfl⟩
        rcases utf16Decode_ok hword with ⟨p, htext, hp, -⟩ | ⟨p1, p2, htext, hp1, hp2, -⟩
        · rw [htext]
          exact .unit ((hlt _).1.2 hp) (ih hrest)
        · rw [htext]
          exact .pair ((hlt _).2.1.2 hp1) ((hlt _).2.2.2 hp2) (ih hrest)
  · generalize htext : t.map (rw.read bswap16 host) = u
    intro h
    induction h generalizing t with
    | nil =>
        rw [List.map_eq_nil_iff] at htext
        exact htext ▸ Lib.Code.isText_nil
    | unit hw _ ih =>
        obtain ⟨p, rest, rfl, rfl, hrest⟩ := List.map_eq_cons_iff.1 htext
        exact (Lib.Code.isText_iff_of_read (hdecode (utf16Decode_unit ((hlt _).1.1 hw)).1)).2 (ih hrest)
    | pair hhigh hlow _ ih =>
        obtain ⟨p1, t1, rfl, rfl, htail⟩ := List.map_eq_cons_iff.1 htext
        obtain ⟨p2, rest, rfl, rfl, hrest⟩ := List.map_eq_cons_iff.1 htail
        have hpair := utf16Decode_pair (t := rest) ((hlt _).2.1.1 hhigh) ((hlt _).2.2.1 hlow)
        exact (Lib.Code.isText_iff_of_read (hdecode hpair.1)).2 (ih hrest)

/-! ## UTF-32 -/

/-- Each unit is a code point that is no surrogate. -/
def Utf32WellFormed (t : List UInt32) : Prop := ∀ u ∈ t, u ≤ 0x10ffff ∧ ¬(0xd800 ≤ u ∧ u ≤ 0xdfff)

section

variable {read write : UInt32 → UInt32} {p : UInt32} {t rest : List UInt32} {cp : Nat}

theorem utf32Decode_ok_iff :
    utf32Decode read t = (.ok cp, rest) ↔ ∃ p, t = p :: rest ∧ (read p).toNat = cp ∧ isValidCodepoint cp := by
  cases t with
  | nil => simp [utf32Decode]
  | cons p t =>
      simp only [utf32Decode]
      split
      · rename_i hvalid
        simp only [Prod.mk.injEq, reduceCtorEq, false_and, List.cons.injEq, false_iff, not_exists, not_and]
        rintro _ ⟨rfl, rfl⟩ rfl hvalid'
        rw [hvalid'] at hvalid
        cases hvalid
      · rename_i hvalid
        simp only [Bool.not_eq_true', Bool.not_eq_false] at hvalid
        constructor
        · rintro h
          cases h
          exact ⟨p, rfl, rfl, hvalid⟩
        · rintro ⟨_, h, rfl, -⟩
          cases h
          rfl

end

theorem utf32_lawful (host : Endian) (rw : ReaderWriter) : (utf32Codecvt host rw).Lawful where
  decode_iff {t cp rest} := by
    show utf32Decode _ t = _ ↔ _ ∧ t = [rw.read bswap32 host (.ofNat cp)] ++ rest
    rw [utf32Decode_ok_iff]
    constructor
    · rintro ⟨p, rfl, rfl, hvalid⟩
      rw [UInt32.ofNat_toNat, rw.read_read bswap32_bswap32]
      exact ⟨hvalid, rfl⟩
    · rintro ⟨hvalid, rfl⟩
      have hlt := (isValidCodepoint_iff.1 hvalid).1
      refine ⟨_, rfl, ?_, hvalid⟩
      rw [rw.read_read bswap32_bswap32, UInt32.toNat_ofNat', Nat.mod_eq_of_lt]
      omega
  decodeUnchecked_encode {cp} rest h := by
    have hlt := (isValidCodepoint_iff.1 h).1
    show some ((rw.read bswap32 host (rw.read bswap32 host (.ofNat cp))).toNat, rest) = some (cp, rest)
    rw [rw.read_read bswap32_bswap32, UInt32.toNat_ofNat', Nat.mod_eq_of_lt]
    omega
  codepointSize_eq _ := rfl

theorem utf32_isText_iff {host : Endian} {rw : ReaderWriter} {t : List UInt32} :
    (utf32_lawful host rw).code.IsText t ↔ Utf32WellFormed (t.map (rw.read bswap32 host)) := by
  have hunit : ∀ u : UInt32, isValidCodepoint u.toNat = true ↔ u ≤ 0x10ffff ∧ ¬(0xd800 ≤ u ∧ u ≤ 0xdfff) := by
    intro u
    simp only [isValidCodepoint_iff, UInt32.le_iff_toNat_le, UInt32.reduceToNat]
  induction t with
  | nil => exact ⟨fun _ => nofun, fun _ => Lib.Code.isText_nil⟩
  | cons p t ih =>
      simp only [Utf32WellFormed, List.map_cons, List.forall_mem_cons] at ih ⊢
      by_cases hvalid : isValidCodepoint (rw.read bswap32 host p).toNat
      · have hread : (utf32_lawful host rw).code.read (p :: t) = some ((rw.read bswap32 host p).toNat, t) :=
          (utf32_lawful host rw).code.read_iff.2
            ((utf32_lawful host rw).decode_iff.1 (utf32Decode_ok_iff.2 ⟨p, rfl, rfl, hvalid⟩))
        refine (Lib.Code.isText_iff_of_read hread).trans (ih.trans ?_)
        exact ⟨fun h => ⟨(hunit _).1 hvalid, h⟩, fun h => h.2⟩
      · have hnone : (utf32_lawful host rw).code.read (p :: t) = none := by
          cases hread : (utf32_lawful host rw).code.read (p :: t) with
          | none => rfl
          | some r =>
              have hdecode : utf32Decode (rw.read bswap32 host) (p :: t) = (.ok r.1, r.2) :=
                (utf32_lawful host rw).decode_iff.2 ((utf32_lawful host rw).code.read_iff.1 hread)
              obtain ⟨_, h, hp, hvalid'⟩ := utf32Decode_ok_iff.1 hdecode
              cases h
              rw [← hp] at hvalid'
              exact absurd hvalid' hvalid
        refine iff_of_false (Lib.Code.not_isText_of_read hnone (List.cons_ne_nil _ _)) fun h => hvalid ?_
        exact (hunit _).2 h.1

end Rad
