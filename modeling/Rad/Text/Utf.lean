import Rad.Text.Ascii

/-!
# UTF-8 and UTF-16 (include/rad/utf.h)

A code point is a natural number. A decoder gives what it makes of the text and the text that it leaves.
-/

namespace Rad

/-- The values of `std::errc` that a decoder gives. -/
inductive Errc where
  | noBufferSpace
  | illegalByteSequence
  deriving DecidableEq

def isSurrogateCodepoint (cp : Nat) : Bool := 0xd800 ≤ cp && cp ≤ 0xdfff

def isValidCodepoint (cp : Nat) : Bool := cp ≤ 0x10ffff && !isSurrogateCodepoint cp

/-! ## UTF-8 -/

def isUtf8ContinuationByte (b : UInt8) : Bool := b &&& 0xc0 == 0x80

/-- 0 for a byte that begins no sequence. -/
def utf8SequenceSize (b : UInt8) : Nat :=
  if b &&& 0x80 = 0 then 1
  else if b &&& 0xe0 = 0xc0 then 2
  else if b &&& 0xf0 = 0xe0 then 3
  else if b &&& 0xf8 = 0xf0 then 4
  else 0

/-- The bits of the first byte of a sequence of the given size. -/
def utf8FirstBits (size : Nat) (b : UInt8) : Nat :=
  (b &&& match size with
    | 1 => 0x7f
    | 2 => 0x1f
    | 3 => 0x0f
    | _ => 0x07).toNat

def utf8CodepointSize (cp : Nat) : Nat :=
  if cp ≤ 0x7f then 1 else if cp ≤ 0x7ff then 2 else if cp ≤ 0xffff then 3 else 4

/-- The code point of a first byte and its continuation bytes. -/
def utf8Codepoint (size : Nat) (b : UInt8) (conts : Bytes) : Nat :=
  conts.foldl (fun cp c => cp * 64 + (c &&& 0x3f).toNat) (utf8FirstBits size b)

/-- `utf8_codecvt::decode`. -/
def utf8Decode (text : Bytes) : Except Errc Nat × Bytes :=
  match text with
  | [] => (.error .noBufferSpace, [])
  | b :: t =>
    let size := utf8SequenceSize b
    if size = 0 then (.error .illegalByteSequence, b :: t)
    else if t.length + 1 < size then
      if t.all isUtf8ContinuationByte then (.error .noBufferSpace, b :: t) else (.error .illegalByteSequence, b :: t)
    else
      let conts := t.take (size - 1)
      if !conts.all isUtf8ContinuationByte then (.error .illegalByteSequence, b :: t)
      else
        let cp := utf8Codepoint size b conts
        if !isValidCodepoint cp then (.error .illegalByteSequence, b :: t)
        -- the count of bytes is made smaller, but the pointer stays
        else if utf8CodepointSize cp ≠ size then (.error .illegalByteSequence, (b :: t).take (t.length + 1 - size))
        else (.ok cp, t.drop (size - 1))

/-- `utf8_codecvt::encode_unchecked`. -/
def utf8Encode (cp : Nat) : Bytes :=
  if cp ≤ 0x7f then [UInt8.ofNat cp]
  else if cp ≤ 0x7ff then [0xc0 ||| UInt8.ofNat (cp / 64 % 32), 0x80 ||| UInt8.ofNat (cp % 64)]
  else if cp ≤ 0xffff then
    [0xe0 ||| UInt8.ofNat (cp / 4096 % 16), 0x80 ||| UInt8.ofNat (cp / 64 % 64), 0x80 ||| UInt8.ofNat (cp % 64)]
  else
    [0xf0 ||| UInt8.ofNat (cp / 262144 % 8), 0x80 ||| UInt8.ofNat (cp / 4096 % 64), 0x80 ||| UInt8.ofNat (cp / 64 % 64),
      0x80 ||| UInt8.ofNat (cp % 64)]

/-! ## UTF-16 -/

/-- `utf16_codecvt::decode` for a buffer of two units. -/
def utf16DecodePair (w1 w2 : Nat) : Except Errc Nat :=
  if w1 / 1024 = 0xdc00 / 1024 then .error .illegalByteSequence
  else if w1 / 1024 ≠ 0xd800 / 1024 then .ok w1
  else if w2 / 1024 ≠ 0xdc00 / 1024 then .error .illegalByteSequence
  else
    let cp := w1 % 1024 * 1024 + w2 % 1024 + 0x10000
    if isValidCodepoint cp then .ok cp else .error .illegalByteSequence

/-! ## Sequences -/

@[simp] theorem isUtf8ContinuationByte_or (n : Nat) : isUtf8ContinuationByte (0x80 ||| UInt8.ofNat (n % 64)) = true := by
  have h : ∀ k < 64, isUtf8ContinuationByte (0x80 ||| UInt8.ofNat k) = true := by decide
  exact h _ (Nat.mod_lt n (by omega))

theorem continuation_bits (n : Nat) : ((0x80 ||| UInt8.ofNat (n % 64)) &&& 0x3f).toNat = n % 64 := by
  have h : ∀ k < 64, ((0x80 ||| UInt8.ofNat k) &&& 0x3f).toNat = k := by decide
  exact h _ (Nat.mod_lt n (by omega))

theorem first_of_two (n : Nat) :
    utf8SequenceSize (0xc0 ||| UInt8.ofNat (n % 32)) = 2 ∧ utf8FirstBits 2 (0xc0 ||| UInt8.ofNat (n % 32)) = n % 32 := by
  have h : ∀ k < 32, utf8SequenceSize (0xc0 ||| UInt8.ofNat k) = 2 ∧ utf8FirstBits 2 (0xc0 ||| UInt8.ofNat k) = k := by
    decide
  exact h _ (Nat.mod_lt n (by omega))

theorem first_of_three (n : Nat) :
    utf8SequenceSize (0xe0 ||| UInt8.ofNat (n % 16)) = 3 ∧ utf8FirstBits 3 (0xe0 ||| UInt8.ofNat (n % 16)) = n % 16 := by
  have h : ∀ k < 16, utf8SequenceSize (0xe0 ||| UInt8.ofNat k) = 3 ∧ utf8FirstBits 3 (0xe0 ||| UInt8.ofNat k) = k := by
    decide
  exact h _ (Nat.mod_lt n (by omega))

theorem first_of_four (n : Nat) :
    utf8SequenceSize (0xf0 ||| UInt8.ofNat (n % 8)) = 4 ∧ utf8FirstBits 4 (0xf0 ||| UInt8.ofNat (n % 8)) = n % 8 := by
  have h : ∀ k < 8, utf8SequenceSize (0xf0 ||| UInt8.ofNat k) = 4 ∧ utf8FirstBits 4 (0xf0 ||| UInt8.ofNat k) = k := by
    decide
  exact h _ (Nat.mod_lt n (by omega))

theorem first_of_one {n : Nat} (h : n ≤ 0x7f) :
    utf8SequenceSize (UInt8.ofNat n) = 1 ∧ utf8FirstBits 1 (UInt8.ofNat n) = n := by
  have h' : ∀ k < 128, utf8SequenceSize (UInt8.ofNat k) = 1 ∧ utf8FirstBits 1 (UInt8.ofNat k) = k := by decide
  exact h' n (by omega)

/-- A code point that is decoded is a whole sequence. -/
theorem utf8Decode_ok {t rest : Bytes} {cp : Nat} (h : utf8Decode t = (.ok cp, rest)) :
    ∃ b conts, t = b :: (conts ++ rest) ∧ utf8SequenceSize b = conts.length + 1 ∧
      conts.all isUtf8ContinuationByte = true ∧ utf8Codepoint (conts.length + 1) b conts = cp ∧ isValidCodepoint cp ∧
      utf8CodepointSize cp = conts.length + 1 := by
  cases t with
  | nil => cases h
  | cons b t =>
      simp only [utf8Decode] at h
      split at h
      · cases h
      split at h
      · split at h <;> cases h
      split at h
      · cases h
      split at h
      · cases h
      split at h
      · cases h
      · rename_i hzero hlong hconts hvalid hsize
        cases h
        have hlen : (t.take (utf8SequenceSize b - 1)).length + 1 = utf8SequenceSize b := by
          rw [List.length_take]
          omega
        simp only [Bool.not_eq_true', Bool.not_eq_false, ne_eq, Decidable.not_not] at hconts hvalid hsize
        refine ⟨b, t.take (utf8SequenceSize b - 1), by rw [List.take_append_drop], hlen.symm, hconts, ?_, hvalid, ?_⟩
        · rw [hlen]
        · rw [hsize, hlen]

/-- A whole sequence, whatever is behind. -/
theorem utf8Decode_sequence {b : UInt8} {conts : Bytes} {cp : Nat} (hsize : utf8SequenceSize b = conts.length + 1)
    (hconts : conts.all isUtf8ContinuationByte = true) (hcp : utf8Codepoint (conts.length + 1) b conts = cp)
    (hvalid : isValidCodepoint cp) (hlen : utf8CodepointSize cp = conts.length + 1) (rest : Bytes) :
    utf8Decode (b :: (conts ++ rest)) = (.ok cp, rest) := by
  have hlong : ¬(conts ++ rest).length + 1 < conts.length + 1 := by
    rw [List.length_append]
    omega
  simp only [utf8Decode, hsize, Nat.succ_ne_zero, ↓reduceIte, hlong, Nat.add_sub_cancel, List.take_left, List.drop_left,
    hconts, Bool.not_true, Bool.false_eq_true, hcp, hvalid, hlen, ne_eq, not_true_eq_false]

theorem utf8Decode_append {t rest : Bytes} {cp : Nat} (h : utf8Decode t = (.ok cp, rest)) (more : Bytes) :
    utf8Decode (t ++ more) = (.ok cp, rest ++ more) := by
  obtain ⟨b, conts, rfl, hsize, hconts, hcp, hvalid, hlen⟩ := utf8Decode_ok h
  rw [List.cons_append, List.append_assoc]
  exact utf8Decode_sequence hsize hconts hcp hvalid hlen _

/-- The beginning of a sequence that is not whole. -/
def Utf8Begun (t : Bytes) : Prop :=
  t.length < utf8SequenceSize (t.headD 0) ∧ t.tail.all isUtf8ContinuationByte = true

theorem utf8Decode_noBufferSpace {b : UInt8} {t : Bytes} :
    (utf8Decode (b :: t)).1 = .error .noBufferSpace ↔ Utf8Begun (b :: t) := by
  simp only [utf8Decode, Utf8Begun, List.headD_cons, List.tail_cons, List.length_cons]
  split
  · rename_i hzero
    simp [hzero]
  split
  · rename_i hshort
    split
    · rename_i hconts
      simp [hshort, hconts]
    · rename_i hconts
      simp [hconts]
  · rename_i hlong
    have hbegun : ¬(t.length + 1 < utf8SequenceSize b ∧ t.all isUtf8ContinuationByte = true) := fun h => hlong h.1
    simp only [hbegun, iff_false]
    split
    · nofun
    split
    · nofun
    split <;> nofun

/-- A text that is no beginning of a sequence stays so. -/
theorem utf8Decode_illegal {t : Bytes} (h : (utf8Decode t).1 = .error .illegalByteSequence) (more : Bytes) :
    (utf8Decode (t ++ more)).1 = .error .illegalByteSequence := by
  cases t with
  | nil => cases h
  | cons b t =>
      simp only [List.cons_append, utf8Decode] at h ⊢
      split at h
      · rename_i hzero
        simp [hzero]
      rename_i hzero
      rw [if_neg hzero]
      split at h
      · rename_i hshort
        split at h
        · cases h
        rename_i hconts
        split
        · rw [if_neg]
          rw [List.all_append]
          simp [hconts]
        · rename_i hlong
          have htake : (t ++ more).take (utf8SequenceSize b - 1) =
              t ++ more.take (utf8SequenceSize b - 1 - t.length) := by
            rw [List.take_append, List.take_of_length_le (by omega)]
          have hall : (!((t ++ more).take (utf8SequenceSize b - 1)).all isUtf8ContinuationByte) = true := by
            rw [htake, List.all_append]
            simp [hconts]
          rw [if_pos hall]
      · rename_i hlong
        have hlong' : ¬(t ++ more).length + 1 < utf8SequenceSize b := by
          rw [List.length_append]
          omega
        have htake : (t ++ more).take (utf8SequenceSize b - 1) = t.take (utf8SequenceSize b - 1) :=
          List.take_append_of_le_length (by omega)
        rw [if_neg hlong', htake]
        split at h
        · rename_i hconts
          rw [if_pos hconts]
        rename_i hconts
        rw [if_neg hconts]
        split at h
        · rename_i hvalid
          rw [if_pos hvalid]
        rename_i hvalid
        rw [if_neg hvalid]
        split at h
        · rename_i hsize
          rw [if_pos hsize]
        · cases h

theorem utf8Decode_ascii {b : UInt8} (h : b < 0x80) (t : Bytes) : utf8Decode (b :: t) = (.ok b.toNat, t) := by
  have hall : ∀ n < 128, utf8SequenceSize (UInt8.ofNat n) = 1 ∧ utf8FirstBits 1 (UInt8.ofNat n) = n ∧
      isValidCodepoint n = true ∧ utf8CodepointSize n = 1 := by decide
  have hlt : b.toNat < 128 := UInt8.lt_iff_toNat_lt.1 h
  obtain ⟨hsize, hbits, hvalid, hlen⟩ := hall b.toNat hlt
  rw [UInt8.ofNat_toNat] at hsize hbits
  exact @utf8Decode_sequence b [] b.toNat hsize rfl hbits hvalid hlen t

/-- A code point below 0x80 is one byte. -/
theorem utf8Decode_low {t rest : Bytes} {cp : Nat} (h : utf8Decode t = (.ok cp, rest)) (hcp : cp < 0x80) :
    ∃ b, b < 0x80 ∧ t = b :: rest ∧ b.toNat = cp := by
  obtain ⟨b, conts, rfl, hsize, -, -, -, hlen⟩ := utf8Decode_ok h
  have hone : utf8CodepointSize cp = 1 := if_pos (by omega)
  have hconts : conts = [] := List.length_eq_zero_iff.1 (by omega)
  subst hconts
  have hall : ∀ n < 256, utf8SequenceSize (UInt8.ofNat n) = 1 → UInt8.ofNat n < 0x80 := by decide +kernel
  have hb := hall b.toNat b.toNat_lt
  rw [UInt8.ofNat_toNat] at hb
  have hdecode := utf8Decode_ascii (hb hsize) rest
  rw [List.nil_append] at h
  rw [hdecode] at h
  exact ⟨b, hb hsize, rfl, Except.ok.inj (Prod.mk.inj h).1⟩

theorem utf8Encode_ne_nil (cp : Nat) : utf8Encode cp ≠ [] := by
  rw [utf8Encode]
  split
  · nofun
  split
  · nofun
  split <;> nofun

/-- The encoding of a code point is decoded to it, whatever is behind. -/
theorem utf8Decode_utf8Encode {cp : Nat} (h : isValidCodepoint cp) (rest : Bytes) :
    utf8Decode (utf8Encode cp ++ rest) = (.ok cp, rest) := by
  have hmax : cp ≤ 0x10ffff := by
    simp only [isValidCodepoint, Bool.and_eq_true, decide_eq_true_eq] at h
    exact h.1
  have hsize : utf8CodepointSize cp =
      if cp ≤ 0x7f then 1 else if cp ≤ 0x7ff then 2 else if cp ≤ 0xffff then 3 else 4 := rfl
  rw [utf8Encode]
  split
  · rename_i h1
    obtain ⟨hfirst, hbits⟩ := first_of_one h1
    exact @utf8Decode_sequence _ [] _ hfirst rfl hbits h (by rw [hsize, if_pos h1]; rfl) rest
  split
  · rename_i h1 h2
    obtain ⟨hfirst, hbits⟩ := first_of_two (cp / 64)
    refine utf8Decode_sequence hfirst (by simp) ?_ h (by rw [hsize, if_neg h1, if_pos h2]; rfl) rest
    show utf8FirstBits 2 _ * 64 + _ = cp
    rw [hbits, continuation_bits]
    omega
  split
  · rename_i h1 h2 h3
    obtain ⟨hfirst, hbits⟩ := first_of_three (cp / 4096)
    refine utf8Decode_sequence hfirst (by simp) ?_ h (by rw [hsize, if_neg h1, if_neg h2, if_pos h3]; rfl) rest
    show (utf8FirstBits 3 _ * 64 + _) * 64 + _ = cp
    rw [hbits, continuation_bits, continuation_bits]
    omega
  · rename_i h1 h2 h3
    obtain ⟨hfirst, hbits⟩ := first_of_four (cp / 262144)
    refine utf8Decode_sequence hfirst (by simp) ?_ h (by rw [hsize, if_neg h1, if_neg h2, if_neg h3]; rfl) rest
    show ((utf8FirstBits 4 _ * 64 + _) * 64 + _) * 64 + _ = cp
    rw [hbits, continuation_bits, continuation_bits, continuation_bits]
    omega

/-! ## Characters -/

theorem isValidCodepoint_char (c : Char) : isValidCodepoint c.toNat := by
  have h : c.toNat < 0xd800 ∨ 0xdfff < c.toNat ∧ c.toNat < 0x110000 := c.valid
  simp only [isValidCodepoint, isSurrogateCodepoint, Bool.and_eq_true, Bool.not_eq_true', Bool.and_eq_false_iff,
    decide_eq_true_eq, decide_eq_false_iff_not]
  omega

theorem utf8Encode_char (c : Char) : utf8Encode c.toNat = String.utf8EncodeChar c := by
  have hcont : ∀ n, (0x80 ||| UInt8.ofNat (n % 64) : UInt8) = UInt8.ofNat (n % 0x40 + 0x80) := by
    intro n
    have h : ∀ k < 64, (0x80 ||| UInt8.ofNat k : UInt8) = UInt8.ofNat (k + 0x80) := by decide
    exact h _ (Nat.mod_lt n (by omega))
  have htwo : ∀ n, (0xc0 ||| UInt8.ofNat (n % 32) : UInt8) = UInt8.ofNat (n % 0x20 + 0xc0) := by
    intro n
    have h : ∀ k < 32, (0xc0 ||| UInt8.ofNat k : UInt8) = UInt8.ofNat (k + 0xc0) := by decide
    exact h _ (Nat.mod_lt n (by omega))
  have hthree : ∀ n, (0xe0 ||| UInt8.ofNat (n % 16) : UInt8) = UInt8.ofNat (n % 0x10 + 0xe0) := by
    intro n
    have h : ∀ k < 16, (0xe0 ||| UInt8.ofNat k : UInt8) = UInt8.ofNat (k + 0xe0) := by decide
    exact h _ (Nat.mod_lt n (by omega))
  have hfour : ∀ n, (0xf0 ||| UInt8.ofNat (n % 8) : UInt8) = UInt8.ofNat (n % 0x08 + 0xf0) := by
    intro n
    have h : ∀ k < 8, (0xf0 ||| UInt8.ofNat k : UInt8) = UInt8.ofNat (k + 0xf0) := by decide
    exact h _ (Nat.mod_lt n (by omega))
  simp only [utf8Encode, String.utf8EncodeChar, hcont, htwo, hthree, hfour]
  rfl

end Rad
