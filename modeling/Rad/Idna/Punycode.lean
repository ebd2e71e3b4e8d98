import Mathlib.Data.List.DropRight
import Rad.Idna.Basic
import Rad.Lib.Bootstring

/-!
# Decoding Punycode (src/net/idna/punycode.cpp)

`punycode_decode`, and the procedure of RFC 3492 that it carries out in numbers of 32 bits.
-/

namespace Rad.Idna

/-! ## The decoder -/

/-- A division by zero has no error code. -/
inductive DecodeError where
  | error (e : Error)
  | divisionByZero
  deriving DecidableEq

/-- The part of a text behind the last delimiter, which is a hyphen. -/
def behindDelimiter (input : Bytes) : Bytes := input.rtakeWhile (· != 0x2d)

/-- The part up to the last delimiter. It is empty when there is none. -/
def upToDelimiter (input : Bytes) : Bytes := input.rdropWhile (· != 0x2d)

/-- `consume_basic_codepoints`: the code points and what is left of the input. -/
def consumeBasicCodepoints (input : Bytes) : Except DecodeError (List Nat × Bytes) :=
  if upToDelimiter input = [] then .ok ([], input)
  else if (upToDelimiter input).dropLast.any (· > 127) then .error (.error .invalidArgument)
  else .ok ((upToDelimiter input).dropLast.map UInt8.toNat, behindDelimiter input)

def decodeDigit (c : UInt8) : Option UInt32 :=
  if 0x61 ≤ c ∧ c ≤ 0x7a then some (c.toUInt32 - 0x61)
  else if 0x30 ≤ c ∧ c ≤ 0x39 then some (c.toUInt32 + 26 - 0x30)
  else none

/-- The sum, unless it overflows. -/
def addAndCheckOverflow (out x : UInt32) : Option UInt32 := if out ≤ out + x then some (out + x) else none

/-- The product, unless it overflows. -/
def multiplyAndCheckOverflow (out x : UInt32) : Option UInt32 :=
  if (out * x).toUInt64 = out.toUInt64 * x.toUInt64 then some (out * x) else none

/-- The number that is added up to `i` from the position `k` on, and what is left of the input. The sum is not checked. -/
def decodeNumber (bias k w i : UInt32) : Bytes → Except DecodeError (UInt32 × Bytes)
  | [] => .error (.error .invalidArgument)
  | c :: input =>
    match decodeDigit c with
    | none => .error (.error .invalidArgument)
    | some digit =>
      let t := threshold bias k
      if digit < t then .ok (i + digit * w, input)
      else
        match multiplyAndCheckOverflow w (punycodeBase - t) with
        | none => .error (.error .invalidArgument)
        | some w' => decodeNumber bias (k + punycodeBase) w' (i + digit * w) input

/-- The variables of `punycode_decode`. -/
structure DecodeState where
  output : List Nat
  outputBytesLen : UInt32
  n : UInt32 := punycodeInitialN
  i : UInt32 := 0
  bias : UInt32 := punycodeInitialBias

/-- The insertion of the code point that the number `i` is about. -/
def insertCodepoint (s : DecodeState) (i : UInt32) : Except DecodeError DecodeState :=
  let numpoints := UInt32.ofNat (s.output.length + 1)
  if numpoints = 0 then .error .divisionByZero
  else
    match addAndCheckOverflow s.n (i / numpoints) with
    | none => .error (.error .invalidArgument)
    | some n =>
      let pos := i.toNat % (s.output.length + 1)
      if isValidCodepoint n.toNat then
        .ok
          { output := s.output.insertIdx pos n.toNat
            outputBytesLen := s.outputBytesLen + UInt32.ofNat (utf8CodepointSize n.toNat)
            n
            i := UInt32.ofNat pos + 1
            bias := adapt (i - s.i) numpoints (s.i == 0) }
      else .error (.error (.errc .illegalByteSequence))

/-- What a digit does. -/
theorem decodeNumber_cons {bias k w i i' : UInt32} {c : UInt8} {input rest : Bytes}
    (h : decodeNumber bias k w i (c :: input) = .ok (i', rest)) :
    ∃ digit, decodeDigit c = some digit ∧
      (digit < threshold bias k ∧ i' = i + digit * w ∧ rest = input ∨
        ¬digit < threshold bias k ∧ ∃ w', multiplyAndCheckOverflow w (punycodeBase - threshold bias k) = some w' ∧
          decodeNumber bias (k + punycodeBase) w' (i + digit * w) input = .ok (i', rest)) := by
  rw [decodeNumber] at h
  split at h
  · cases h
  rename_i digit hdigit
  refine ⟨digit, hdigit, ?_⟩
  dsimp only at h
  split at h
  · rename_i hlast
    cases h
    exact .inl ⟨hlast, rfl, rfl⟩
  rename_i hmore
  split at h
  · cases h
  · rename_i w' hw
    exact .inr ⟨hmore, w', hw, h⟩

theorem decodeNumber_length {bias k w i i' : UInt32} {input rest : Bytes}
    (h : decodeNumber bias k w i input = .ok (i', rest)) : rest.length < input.length := by
  induction input generalizing k w i with
  | nil => cases h
  | cons c input ih =>
      obtain ⟨digit, -, ⟨-, -, rfl⟩ | ⟨-, w', -, h⟩⟩ := decodeNumber_cons h
      · exact Nat.lt_succ_self _
      · exact Nat.lt_succ_of_lt (ih h)

def decodeLoop (s : DecodeState) (input : Bytes) : Except DecodeError DecodeState :=
  if input = [] then .ok s
  else
    match _h : decodeNumber s.bias punycodeBase 1 s.i input with
    | .error e => .error e
    | .ok (i, rest) =>
      match insertCodepoint s i with
      | .error e => .error e
      | .ok s => decodeLoop s rest
termination_by input.length
decreasing_by exact decodeNumber_length _h

/-- The output in UTF-8, in a buffer of `n` bytes. -/
def encodeOutput (n : Nat) : List Nat → Except DecodeError Bytes
  | [] => .ok (List.replicate n 0)
  | cp :: output =>
    match utf8EncodeInto n cp with
    | [] => .error (.error (.errc .illegalByteSequence))
    | units => (encodeOutput (n - units.length) output).map (units ++ ·)

/-- `punycode_decode`. -/
def punycodeDecode (input : Bytes) : Except DecodeError Bytes :=
  (consumeBasicCodepoints input).bind fun (basic, input) =>
    (decodeLoop { output := basic, outputBytesLen := UInt32.ofNat basic.length } input).bind fun s =>
      encodeOutput s.outputBytesLen.toNat s.output

/-! ## The procedure -/

/-- The threshold of a digit. -/
def rfcThreshold (bias k : Nat) : Nat := if k ≤ bias then 1 else if k ≥ bias + 26 then 26 else k - bias

def rfcAdaptLoop (delta k : Nat) : Nat × Nat :=
  if delta > (36 - 1) * 26 / 2 then rfcAdaptLoop (delta / (36 - 1)) (k + 36) else (delta, k)

/-- The bias adaptation. -/
def rfcAdapt (delta numpoints : Nat) (first : Bool) : Nat :=
  let delta := if first then delta / 700 else delta / 2
  let (delta, k) := rfcAdaptLoop (delta + delta / numpoints) 0
  k + (36 - 1 + 1) * delta / (delta + 38)

/-- The parameter values of Punycode. -/
def punycode : Lib.Bootstring where
  base := 36
  threshold := rfcThreshold
  adapt := rfcAdapt
  threshold_pos bias k := by
    rw [rfcThreshold]
    split_ifs <;> omega
  threshold_lt bias k := by
    rw [rfcThreshold]
    split_ifs <;> omega

/-- The value of a digit. The letters are digits in either case. -/
def rfcDigit (c : UInt8) : Option Nat :=
  if 0x41 ≤ c ∧ c ≤ 0x5a then some (c.toNat - 0x41)
  else if 0x61 ≤ c ∧ c ≤ 0x7a then some (c.toNat - 0x61)
  else if 0x30 ≤ c ∧ c ≤ 0x39 then some (c.toNat - 0x30 + 26)
  else none

/-- The code points in front of the last delimiter. -/
def rfcBasic (input : Bytes) : Bytes := (upToDelimiter input).dropLast

/-- What is left of the input: the delimiter is consumed when there are code points in front of it. -/
def rfcExtended (input : Bytes) : Bytes := if rfcBasic input = [] then input else behindDelimiter input

/-- The decoding procedure of RFC 3492, in numbers without a bound. -/
def rfcDecode (input : Bytes) : Option (List Nat) :=
  if (rfcBasic input).any (· > 127) then none
  else ((rfcExtended input).mapM rfcDigit).bind (punycode.decodeFrom 128 0 72 ((rfcBasic input).map UInt8.toNat))

/-- The text that the procedure gives. -/
def IsRfcText (input text : Bytes) : Prop := ∃ cps, rfcDecode input = some cps ∧ utf8DecodeAll text = .ok cps

/-- The last delimiter of a text is its first character. -/
def DelimiterFirst (input : Bytes) : Prop := upToDelimiter input = [0x2d]

/-- The index of the procedure stays below 2^32. -/
def IndexFits (input : Bytes) : Prop :=
  ∀ digits, (rfcExtended input).mapM rfcDigit = some digits →
    punycode.StaysBelow (2 ^ 32) 0 (rfcBasic input).length 72 digits

end Rad.Idna
