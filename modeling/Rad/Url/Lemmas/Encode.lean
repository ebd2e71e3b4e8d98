import Rad.Idna.Lemmas.Labels
import Rad.Url.Address

/-!
# Percent encoding byte by byte

The encode sets hold what is not ASCII, so a text is encoded byte by byte, and what has been encoded stays as it is.
-/

namespace Rad.Url

/-- The byte is no element of the encode set. -/
def keeps (encodeSet : List PerecentEncodeSetItem) (b : UInt8) : Bool := isUnreservedCharacterSet encodeSet b.toNat

def encodeByte (encodeSet : List PerecentEncodeSetItem) (b : UInt8) : Bytes :=
  if keeps encodeSet b then [b] else percentByte b

/-- The encode sets of the parser hold everything above 0x7e. -/
def HoldsHigh (encodeSet : List PerecentEncodeSetItem) : Prop := .greaterThan 0x7e ∈ encodeSet

instance (encodeSet : List PerecentEncodeSetItem) : Decidable (HoldsHigh encodeSet) :=
  inferInstanceAs (Decidable (_ ∈ encodeSet))

variable {encodeSet : List PerecentEncodeSetItem} {t : Bytes} {b : UInt8} {cp : Nat} {cps : List Nat}

theorem isUnreserved_high (hset : HoldsHigh encodeSet) (h : 0x7e < cp) :
    isUnreservedCharacterSet encodeSet cp = false := by
  rw [isUnreservedCharacterSet, Bool.not_eq_false', List.any_eq_true]
  exact ⟨_, hset, decide_eq_true h⟩

theorem keeps_le (hset : HoldsHigh encodeSet) (h : keeps encodeSet b = true) : b.toNat ≤ 0x7e := by
  by_contra hhigh
  rw [keeps, isUnreserved_high hset (Nat.lt_of_not_le hhigh)] at h
  cases h

theorem keeps_ascii (hset : HoldsHigh encodeSet) (h : keeps encodeSet b = true) : b < 0x80 :=
  UInt8.lt_iff_toNat_lt.2 (Nat.lt_of_le_of_lt (keeps_le hset h) (by decide))

theorem keeps_high (hset : HoldsHigh encodeSet) (h : 0x80 ≤ b) : keeps encodeSet b = false := by
  have h80 : (0x80 : UInt8).toNat = 128 := rfl
  have hb := UInt8.le_iff_toNat_le.1 h
  exact isUnreserved_high hset (by omega)

/-! ## The encoding -/

theorem flatMap_encodeByte_high (hset : HoldsHigh encodeSet) (h : ∀ b ∈ t, 0x80 ≤ b) :
    t.flatMap (encodeByte encodeSet) = t.flatMap percentByte :=
  List.flatMap_congr fun b hb => if_neg (by rw [keeps_high hset (h b hb)]; exact Bool.false_ne_true)

theorem length_flatMap_percentByte (t : Bytes) : (t.flatMap percentByte).length = t.length * 3 := by
  induction t with
  | nil => rfl
  | cons b t ih =>
      rw [List.flatMap_cons, List.length_append, ih, List.length_cons]
      simp only [percentByte, List.length_cons, List.length_nil]
      omega

theorem percentEncodeLoop_pending (f : Nat → Bool) (conts rest : Bytes) :
    percentEncodeLoop f conts.length (conts ++ rest) = conts.flatMap percentByte ++ percentEncodeLoop f 0 rest := by
  induction conts with
  | nil => rfl
  | cons b conts ih =>
      rw [List.length_cons, List.cons_append, percentEncodeLoop, ih, List.flatMap_cons, List.append_assoc]

theorem toNat_utf8Encode_low (h : cp < 0x80) : ∃ b : UInt8, utf8Encode cp = [b] ∧ b.toNat = cp := by
  refine ⟨UInt8.ofNat cp, Idna.utf8Encode_low h, ?_⟩
  rw [UInt8.toNat_ofNat']
  omega

theorem length_utf8Encode (h : isValidCodepoint cp = true) : (utf8Encode cp).length = utf8CodepointSize cp :=
  (utf8_lawful.codepointSize_eq h).symm

theorem percentEncodeLoop_eq (hset : HoldsHigh encodeSet) (hvalid : ∀ cp ∈ cps, isValidCodepoint cp = true) :
    percentEncodeLoop (isUnreservedCharacterSet encodeSet) 0 (cps.flatMap utf8Encode) =
      (cps.flatMap utf8Encode).flatMap (encodeByte encodeSet) := by
  induction cps with
  | nil => rfl
  | cons cp cps ih =>
      obtain ⟨hcp, hvalid⟩ := List.forall_mem_cons.1 hvalid
      rw [List.flatMap_cons, List.flatMap_append, ← ih hvalid]
      by_cases hlow : cp < 0x80
      · obtain ⟨b, hb, hnat⟩ := toNat_utf8Encode_low hlow
        have hsize : utf8SequenceSize b = 1 := by
          have h := (first_of_one (Nat.le_of_lt_succ hlow)).1
          rwa [← hnat, UInt8.ofNat_toNat] at h
        rw [hb, List.singleton_append, percentEncodeLoop, List.flatMap_cons, List.flatMap_nil, List.append_nil, encodeByte,
          keeps, hsize]
        split <;> rfl
      · obtain ⟨b, conts, htext, hsize, -⟩ := utf8Decode_ok (utf8Decode_utf8Encode hcp [])
        rw [List.append_nil, List.append_nil] at htext
        have hhigh := Idna.utf8Encode_high (Nat.not_lt.1 hlow)
        have hb : isUnreservedCharacterSet encodeSet b.toNat = false :=
          keeps_high hset (hhigh b (by rw [htext]; exact List.mem_cons_self))
        rw [flatMap_encodeByte_high hset hhigh, htext, List.cons_append, percentEncodeLoop, hb,
          if_neg Bool.false_ne_true, hsize, Nat.add_sub_cancel, percentEncodeLoop_pending, List.flatMap_cons,
          List.append_assoc]

theorem sum_eq_length (hset : HoldsHigh encodeSet) (hvalid : ∀ cp ∈ cps, isValidCodepoint cp = true) :
    (cps.map fun cp => if isUnreservedCharacterSet encodeSet cp then 1 else utf8CodepointSize cp * 3).sum =
      ((cps.flatMap utf8Encode).flatMap (encodeByte encodeSet)).length := by
  induction cps with
  | nil => rfl
  | cons cp cps ih =>
      obtain ⟨hcp, hvalid⟩ := List.forall_mem_cons.1 hvalid
      rw [List.map_cons, List.sum_cons, ih hvalid, List.flatMap_cons, List.flatMap_append, List.length_append,
        ← length_utf8Encode hcp]
      congr 1
      by_cases hlow : cp < 0x80
      · obtain ⟨b, hb, hnat⟩ := toNat_utf8Encode_low hlow
        rw [hb, List.flatMap_cons, List.flatMap_nil, List.append_nil, encodeByte, keeps, hnat]
        split <;> rfl
      · have hhigh := Idna.utf8Encode_high (Nat.not_lt.1 hlow)
        rw [flatMap_encodeByte_high hset hhigh, length_flatMap_percentByte,
          isUnreserved_high hset (Nat.lt_of_lt_of_le (by decide) (Nat.not_lt.1 hlow)), if_neg Bool.false_ne_true]

theorem length_le_flatMap (encodeSet : List PerecentEncodeSetItem) (t : Bytes) :
    t.length ≤ (t.flatMap (encodeByte encodeSet)).length := by
  induction t with
  | nil => exact Nat.le_refl _
  | cons b t ih =>
      have hb : 1 ≤ (encodeByte encodeSet b).length := by
        rw [encodeByte]
        split <;> exact Nat.succ_le_succ (Nat.zero_le _)
      rw [List.flatMap_cons, List.length_append, List.length_cons]
      omega

/-- A text that does not become longer is not changed. -/
theorem flatMap_eq_self (h : t.length = (t.flatMap (encodeByte encodeSet)).length) :
    t.flatMap (encodeByte encodeSet) = t := by
  induction t with
  | nil => rfl
  | cons b t ih =>
      have hle := length_le_flatMap encodeSet t
      rw [List.flatMap_cons, List.length_append, List.length_cons, encodeByte] at h
      split at h
      · rename_i hb
        rw [List.length_singleton] at h
        rw [List.flatMap_cons, encodeByte, if_pos hb, ih (by omega), List.singleton_append]
      · simp only [percentByte, List.length_cons, List.length_nil] at h
        omega

theorem percentEncodeSet_ok (hset : HoldsHigh encodeSet) (h : utf8DecodeAll t = .ok cps) :
    percentEncodeSet encodeSet t = .ok (t.flatMap (encodeByte encodeSet)) := by
  have hvalid := Idna.utf8DecodeAll_valid h
  have htext := (utf8DecodeAll_ok h).1
  have hloop := percentEncodeLoop_eq hset hvalid
  have hsum := sum_eq_length hset hvalid
  rw [htext] at hloop hsum
  rw [percentEncodeSet, percentEncode, getPerecentEncodedSize, h]
  simp only [Except.map, hsum]
  split
  · rename_i hzero
    rw [List.eq_nil_of_length_eq_zero hzero]
    rfl
  · rw [doPercentEncode]
    split
    · rename_i hlen
      rw [flatMap_eq_self hlen]
      rfl
    · rw [hloop]
      rfl

theorem percentEncodeSet_error {e : Errc} (h : utf8DecodeAll t = .error e) :
    percentEncodeSet encodeSet t = .error .percentEncoding := by
  rw [percentEncodeSet, percentEncode, getPerecentEncodedSize, h]
  rfl

theorem percentEncodeSet_nil (encodeSet : List PerecentEncodeSetItem) : percentEncodeSet encodeSet [] = .ok [] := by
  rw [percentEncodeSet, percentEncode, getPerecentEncodedSize, utf8DecodeAll_nil]
  rfl

theorem percentEncodeSet_eq_ok {encoded : Bytes} (hset : HoldsHigh encodeSet)
    (h : percentEncodeSet encodeSet t = .ok encoded) : encoded = t.flatMap (encodeByte encodeSet) := by
  cases hcps : utf8DecodeAll t with
  | error e => rw [percentEncodeSet_error hcps] at h; cases h
  | ok cps =>
      rw [percentEncodeSet_ok hset hcps] at h
      cases h
      rfl

/-! ## What has been encoded -/

theorem utf8DecodeAll_ascii (h : Idna.IsAscii t) : utf8DecodeAll t = .ok (t.map UInt8.toNat) := by
  induction t with
  | nil => exact utf8DecodeAll_nil
  | cons b t ih =>
      obtain ⟨hb, ht⟩ := Idna.isAscii_cons.1 h
      rw [utf8DecodeAll_of_ok (utf8Decode_ascii hb t), ih ht]
      rfl

theorem flatMap_encodeByte_of_keeps (h : ∀ b ∈ t, keeps encodeSet b = true) : t.flatMap (encodeByte encodeSet) = t := by
  induction t with
  | nil => rfl
  | cons b t ih =>
      obtain ⟨hb, ht⟩ := List.forall_mem_cons.1 h
      rw [List.flatMap_cons, ih ht, encodeByte, if_pos hb, List.singleton_append]

/-- A text that is kept stays as it is. -/
theorem percentEncodeSet_of_keeps (hset : HoldsHigh encodeSet) (h : ∀ b ∈ t, keeps encodeSet b = true) :
    percentEncodeSet encodeSet t = .ok t := by
  rw [percentEncodeSet_ok hset (utf8DecodeAll_ascii fun b hb => keeps_ascii hset (h b hb)), flatMap_encodeByte_of_keeps h]

/-- The percent sign and the digits of an escape. -/
def isEscapeCharacter (b : UInt8) : Bool := b == 0x25 || (0x30 ≤ b && b ≤ 0x39) || (0x41 ≤ b && b ≤ 0x46)

theorem isEscapeCharacter_of_mem {v : UInt8} (h : b ∈ percentByte v) : isEscapeCharacter b = true := by
  have hall : ∀ n < 256, (percentByte (UInt8.ofNat n)).all isEscapeCharacter = true := by decide +kernel
  have hv := hall v.toNat v.toNat_lt
  rw [UInt8.ofNat_toNat] at hv
  exact List.all_eq_true.1 hv b h

theorem mem_encodeByte {v : UInt8} (h : b ∈ encodeByte encodeSet v) :
    (b = v ∧ keeps encodeSet b = true) ∨ isEscapeCharacter b = true := by
  rw [encodeByte] at h
  split at h
  · rename_i hkeeps
    rw [List.mem_singleton] at h
    exact .inl ⟨h, h ▸ hkeeps⟩
  · exact .inr (isEscapeCharacter_of_mem h)

/-- The bytes of an encoded text are bytes of the text that are kept, and those of escapes. -/
theorem mem_encoded (h : b ∈ t.flatMap (encodeByte encodeSet)) :
    (b ∈ t ∧ keeps encodeSet b = true) ∨ isEscapeCharacter b = true := by
  obtain ⟨v, hv, hb⟩ := List.mem_flatMap.1 h
  rcases mem_encodeByte hb with ⟨rfl, hkeeps⟩ | hescape
  · exact .inl ⟨hv, hkeeps⟩
  · exact .inr hescape

example : (ascii "a b").flatMap (encodeByte pathPercentEncodeSet) = ascii "a%20b" := by decide +kernel

end Rad.Url
