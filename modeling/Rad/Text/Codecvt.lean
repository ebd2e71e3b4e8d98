import Rad.Lib.BitCode
import Rad.Text.Utf

/-!
# The UTF-8, UTF-16 and UTF-32 codecs (include/rad/utf.h)

A unit is kept as it stands in memory, and a reader and writer takes it to the byte order of the host.
-/

namespace Rad

/-! ## Byte orders -/

inductive Endian where
  | little
  | big
  deriving DecidableEq

/-- `detail::bswap` for a type that it has a branch for. -/
def bswap16 (v : UInt16) : UInt16 := .ofNat (v.toNat % 0x100 * 0x100 + v.toNat / 0x100)

def bswap32 (v : UInt32) : UInt32 :=
  .ofNat (v.toNat % 0x100 * 0x1000000 + v.toNat / 0x100 % 0x100 * 0x10000 + v.toNat / 0x10000 % 0x100 * 0x100 +
    v.toNat / 0x1000000)

/-- The policies of reading and writing units. -/
inductive ReaderWriter where
  | le
  | be
  | native
  deriving DecidableEq

section

variable {υ : Type} (bswap : υ → υ) (host : Endian)

def readLeValue (v : υ) : υ := if host = .little then v else bswap v

def readBeValue (v : υ) : υ := if host = .big then v else bswap v

def readNativeValue (v : υ) : υ := if host = .little then readLeValue bswap host v else readBeValue bswap host v

/-- The bytes of a unit are exchanged, or not, in both directions: `read` and `write` are one function. -/
def ReaderWriter.read (rw : ReaderWriter) (v : υ) : υ :=
  match rw with
  | .le => readLeValue bswap host v
  | .be => readBeValue bswap host v
  | .native => readNativeValue bswap host v

abbrev ReaderWriter.write (rw : ReaderWriter) (v : υ) : υ := rw.read bswap host v

end

/-- The types that a unit of two or of four bytes has: `uint16_t` or `uint32_t`, `char16_t` or `char32_t`, and `wchar_t`. -/
inductive UnitType where
  | uint
  | char
  | wchar
  deriving DecidableEq

/-- Whether `detail::bswap` has a branch for the type. Where it has none, it ends without a value. -/
def UnitType.hasBswap : UnitType → Bool
  | .uint => true
  | .char | .wchar => false

/-- Whether `read` and `write` return: they call `bswap` for the byte order that is not the one of the host. -/
def ReaderWriter.returns (host : Endian) (type : UnitType) : ReaderWriter → Bool
  | .le => host = .little || type.hasBswap
  | .be => host = .big || type.hasBswap
  | .native => true

/-! ## Codecs -/

/-- What the concept `CodeCvt` asks for, for code points that are all accepted. The unchecked decoder reads outside of
the text where it gives nothing. -/
structure CodeCvt (υ : Type) where
  codepointSize : Nat → Nat
  decode : List υ → Except Errc Nat × List υ
  decodeUnchecked : List υ → Option (Nat × List υ)
  encodeUnchecked : Nat → List υ
  decode_lt : ∀ {t cp rest}, decode t = (.ok cp, rest) → rest.length < t.length
  decodeUnchecked_lt : ∀ {t cp rest}, decodeUnchecked t = some (cp, rest) → rest.length < t.length

/-- `utf8_codecvt::decode_unchecked`. -/
def utf8DecodeUnchecked (text : Bytes) : Option (Nat × Bytes) :=
  match text with
  | [] => none
  | b :: t =>
    let size := utf8SequenceSize b
    -- there is no mask for the size 0
    if size = 0 ∨ t.length < size - 1 then none
    else some (utf8Codepoint size b (t.take (size - 1)), t.drop (size - 1))

section

variable (read : UInt16 → UInt16)

def utf16CodepointSize (cp : Nat) : Nat := if cp ≤ 0xffff then 1 else 2

/-- The code point of a high and a low surrogate. -/
def utf16Codepoint (w1 w2 : UInt16) : Nat := ((w1 &&& 0x3ff).toNat <<< 10 ||| (w2 &&& 0x3ff).toNat) + 0x10000

/-- `utf16_codecvt_base::decode`. -/
def utf16Decode (text : List UInt16) : Except Errc Nat × List UInt16 :=
  match text with
  | [] => (.error .noBufferSpace, [])
  | p :: t =>
    let w1 := read p
    if w1 &&& 0xfc00 = 0xdc00 then (.error .illegalByteSequence, text)
    else if w1 &&& 0xfc00 ≠ 0xd800 then (.ok w1.toNat, t)
    else
      match t with
      | [] => (.error .noBufferSpace, text)
      | p :: t =>
        let w2 := read p
        if w2 &&& 0xfc00 ≠ 0xdc00 then (.error .illegalByteSequence, text)
        else if !isValidCodepoint (utf16Codepoint w1 w2) then (.error .illegalByteSequence, text)
        else (.ok (utf16Codepoint w1 w2), t)

/-- `utf16_codecvt_base::decode_unchecked`. -/
def utf16DecodeUnchecked (text : List UInt16) : Option (Nat × List UInt16) :=
  match text with
  | [] => none
  | p :: t =>
    let w1 := read p
    if w1 &&& 0xfc00 ≠ 0xd800 then some (w1.toNat, t)
    else
      match t with
      | [] => none
      | p :: t => some (utf16Codepoint w1 (read p), t)

/-- `utf16_codecvt_base::encode_unchecked`. -/
def utf16Encode (write : UInt16 → UInt16) (cp : Nat) : List UInt16 :=
  if cp ≤ 0xffff then [write (.ofNat cp)]
  else [write (0xd800 + .ofNat ((cp - 0x10000) >>> 10)), write (0xdc00 + .ofNat ((cp - 0x10000) &&& 0x3ff))]

end

section

variable (read : UInt32 → UInt32)

/-- `utf32_codecvt_base::decode`. -/
def utf32Decode (text : List UInt32) : Except Errc Nat × List UInt32 :=
  match text with
  | [] => (.error .noBufferSpace, [])
  | p :: t =>
    let cp := (read p).toNat
    if !isValidCodepoint cp then (.error .illegalByteSequence, text) else (.ok cp, t)

/-- `utf32_codecvt_base::decode_unchecked`. -/
def utf32DecodeUnchecked (text : List UInt32) : Option (Nat × List UInt32) :=
  match text with
  | [] => none
  | p :: t => some ((read p).toNat, t)

/-- `utf32_codecvt_base::encode_unchecked`. -/
def utf32Encode (write : UInt32 → UInt32) (cp : Nat) : List UInt32 := [write (.ofNat cp)]

end

/-! ## What a decoder takes -/

theorem utf8DecodeUnchecked_lt {t rest : Bytes} {cp : Nat} (h : utf8DecodeUnchecked t = some (cp, rest)) :
    rest.length < t.length := by
  cases t with
  | nil => cases h
  | cons b t =>
      simp only [utf8DecodeUnchecked] at h
      split at h
      · cases h
      · cases h
        rw [List.length_drop, List.length_cons]
        omega

theorem utf16Decode_lt {read : UInt16 → UInt16} {t rest : List UInt16} {cp : Nat}
    (h : utf16Decode read t = (.ok cp, rest)) : rest.length < t.length := by
  cases t with
  | nil => cases h
  | cons p t =>
      simp only [utf16Decode] at h
      split at h
      · cases h
      split at h
      · cases h
        exact Nat.lt_succ_self _
      cases t with
      | nil => cases h
      | cons p' t =>
          simp only at h
          split at h
          · cases h
          split at h
          · cases h
          · cases h
            simp only [List.length_cons]
            omega

theorem utf16DecodeUnchecked_lt {read : UInt16 → UInt16} {t rest : List UInt16} {cp : Nat}
    (h : utf16DecodeUnchecked read t = some (cp, rest)) : rest.length < t.length := by
  cases t with
  | nil => cases h
  | cons p t =>
      simp only [utf16DecodeUnchecked] at h
      split at h
      · cases h
        exact Nat.lt_succ_self _
      cases t with
      | nil => cases h
      | cons p' t =>
          cases h
          simp only [List.length_cons]
          omega

theorem utf32Decode_lt {read : UInt32 → UInt32} {t rest : List UInt32} {cp : Nat}
    (h : utf32Decode read t = (.ok cp, rest)) : rest.length < t.length := by
  cases t with
  | nil => cases h
  | cons p t =>
      simp only [utf32Decode] at h
      split at h
      · cases h
      · cases h
        exact Nat.lt_succ_self _

theorem utf32DecodeUnchecked_lt {read : UInt32 → UInt32} {t rest : List UInt32} {cp : Nat}
    (h : utf32DecodeUnchecked read t = some (cp, rest)) : rest.length < t.length := by
  cases t with
  | nil => cases h
  | cons p t =>
      cases h
      exact Nat.lt_succ_self _

/-! ## The codecs -/

def utf8Codecvt : CodeCvt UInt8 where
  codepointSize := utf8CodepointSize
  decode := utf8Decode
  decodeUnchecked := utf8DecodeUnchecked
  encodeUnchecked := utf8Encode
  decode_lt h := by
    obtain ⟨b, conts, rfl, -⟩ := utf8Decode_ok h
    rw [List.length_cons, List.length_append]
    omega
  decodeUnchecked_lt := utf8DecodeUnchecked_lt

def utf16Codecvt (host : Endian) (rw : ReaderWriter) : CodeCvt UInt16 where
  codepointSize := utf16CodepointSize
  decode := utf16Decode (rw.read bswap16 host)
  decodeUnchecked := utf16DecodeUnchecked (rw.read bswap16 host)
  encodeUnchecked := utf16Encode (rw.write bswap16 host)
  decode_lt := utf16Decode_lt
  decodeUnchecked_lt := utf16DecodeUnchecked_lt

def utf32Codecvt (host : Endian) (rw : ReaderWriter) : CodeCvt UInt32 where
  codepointSize _ := 1
  decode := utf32Decode (rw.read bswap32 host)
  decodeUnchecked := utf32DecodeUnchecked (rw.read bswap32 host)
  encodeUnchecked := utf32Encode (rw.write bswap32 host)
  decode_lt := utf32Decode_lt
  decodeUnchecked_lt := utf32DecodeUnchecked_lt

end Rad
