import Rad.Lib.Loop
import Rad.Text.UtfTheorems

/-!
# Percent encoding (src/net/url/percent_encoding.cpp, the encode sets of src/net/url/url.cpp)
-/

namespace Rad.Url

/-! ## Encode sets -/

/-- `perecent_encode_set_item`. -/
inductive PerecentEncodeSetItem where
  | codepoint (c : Nat)
  | upto (stopInclusive : Nat)
  | greaterThan (startExclusive : Nat)
  deriving DecidableEq

def PerecentEncodeSetItem.toEncode (cp : Nat) : PerecentEncodeSetItem → Bool
  | .codepoint c => c == cp
  | .upto stop => cp ≤ stop
  | .greaterThan start => cp > start

/-- `is_unreserved_character_set`. -/
def isUnreservedCharacterSet (encodeSet : List PerecentEncodeSetItem) (cp : Nat) : Bool :=
  !encodeSet.any (·.toEncode cp)

/-- `is_unreserved_character`. -/
def isUnreservedCharacter (cp : Nat) : Bool :=
  (0x41 ≤ cp && cp ≤ 0x5a) || (0x61 ≤ cp && cp ≤ 0x7a) || (0x30 ≤ cp && cp ≤ 0x39) || cp == 0x2d || cp == 0x5f ||
    cp == 0x7e || cp == 0x2e

def c0ControlPercentEncodeSet : List PerecentEncodeSetItem := [.upto 0x1f, .greaterThan 0x7e]

def fragmentPercentEncodeSet : List PerecentEncodeSetItem :=
  [.upto 0x1f, .greaterThan 0x7e, .codepoint 0x20, .codepoint 0x22, .codepoint 0x3c, .codepoint 0x3e, .codepoint 0x60]

def queryPercentEncodeSet : List PerecentEncodeSetItem :=
  [.upto 0x1f, .greaterThan 0x7e, .codepoint 0x20, .codepoint 0x22, .codepoint 0x3c, .codepoint 0x3e, .codepoint 0x23]

def specialQueryPercentEncodeSet : List PerecentEncodeSetItem :=
  [.upto 0x1f, .greaterThan 0x7e, .codepoint 0x20, .codepoint 0x22, .codepoint 0x3c, .codepoint 0x3e, .codepoint 0x23,
    .codepoint 0x27]

def pathPercentEncodeSet : List PerecentEncodeSetItem :=
  [.upto 0x1f, .greaterThan 0x7e, .codepoint 0x20, .codepoint 0x22, .codepoint 0x3c, .codepoint 0x3e, .codepoint 0x23,
    .codepoint 0x3f, .codepoint 0x5e, .codepoint 0x60, .codepoint 0x7b, .codepoint 0x7d]

def userinfoPercentEncodeSet : List PerecentEncodeSetItem :=
  [.upto 0x1f, .greaterThan 0x7e, .codepoint 0x20, .codepoint 0x22, .codepoint 0x3c, .codepoint 0x3e, .codepoint 0x23,
    .codepoint 0x3f, .codepoint 0x5e, .codepoint 0x60, .codepoint 0x7b, .codepoint 0x7d, .codepoint 0x2f,
    .codepoint 0x3a, .codepoint 0x3b, .codepoint 0x3d, .codepoint 0x40, .codepoint 0x5b, .codepoint 0x5c,
    .codepoint 0x5d, .codepoint 0x7c]

/-! ## Encoding -/

/-- `get_perecent_encoded_size`. -/
def getPerecentEncodedSize (encodeSetF : Nat → Bool) (input : Bytes) : Except Errc Nat :=
  (utf8DecodeAll input).map fun cps => (cps.map fun cp => if encodeSetF cp then 1 else utf8CodepointSize cp * 3).sum

def hexDigit (v : UInt8) : UInt8 := if v < 10 then 0x30 + v else 0x41 + (v - 10)

/-- `make_hex_seq`, behind the percent sign. -/
def percentByte (v : UInt8) : Bytes := [0x25, hexDigit (v >>> 4), hexDigit (v &&& 0x0f)]

/-- The loop of `do_percent_encode`, of which `pending` bytes of a sequence are still to be encoded. -/
def percentEncodeLoop (encodeSetF : Nat → Bool) : Nat → Bytes → Bytes
  | _, [] => []
  | 0, ch :: input =>
    if encodeSetF ch.toNat then ch :: percentEncodeLoop encodeSetF 0 input
    else percentByte ch ++ percentEncodeLoop encodeSetF (utf8SequenceSize ch - 1) input
  | pending + 1, ch :: input => percentByte ch ++ percentEncodeLoop encodeSetF pending input

def doPercentEncode (encodeSetF : Nat → Bool) (input : Bytes) (outputSize : Nat) : Bytes :=
  if input.length = outputSize then input else percentEncodeLoop encodeSetF 0 input

/-- `percent_encode`; what it appends. -/
def percentEncode (encodeSetF : Nat → Bool) (input : Bytes) : Except Errc Bytes :=
  (getPerecentEncodedSize encodeSetF input).map fun encodedLen =>
    if encodedLen = 0 then [] else doPercentEncode encodeSetF input encodedLen

/-! ## Decoding -/

def hexCharToDecimal (ch : UInt8) : Option UInt8 :=
  if 0x30 ≤ ch ∧ ch ≤ 0x39 then some (ch - 0x30)
  else if 0x61 ≤ ch ∧ ch ≤ 0x66 then some (ch - 0x61 + 10)
  else if 0x41 ≤ ch ∧ ch ≤ 0x46 then some (ch - 0x41 + 10)
  else none

/-- `decode_percent_encoded_byte` of a text of two bytes or more. -/
def decodePercentEncodedByte : Bytes → Except Errc (UInt8 × Bytes)
  | ch1 :: ch2 :: input =>
    match hexCharToDecimal ch1, hexCharToDecimal ch2 with
    | some byte1, some byte2 => .ok (byte1 * 16 + byte2, input)
    | _, _ => .error .illegalByteSequence
  | _ => .error .noBufferSpace

/-- The bytes of a sequence that follow its first one. -/
def decodePercentEncodedBytes : Nat → Bytes → Except Errc (Bytes × Bytes)
  | 0, input => .ok ([], input)
  | n + 1, ch :: input =>
    if ch ≠ 0x25 then .error .illegalByteSequence
    else
      (decodePercentEncodedByte input).bind fun (byte, input) =>
        (decodePercentEncodedBytes n input).map fun (bytes, input) => (byte :: bytes, input)
  | _ + 1, [] => .error .noBufferSpace

/-- A `char` is converted with its sign. -/
def charCodepoint (ch : UInt8) : Nat := if ch < 0x80 then ch.toNat else 0xffffff00 + ch.toNat

/-- The bytes that an escape and those which belong to it stand for, with the text behind the percent sign. -/
def decodeEscape (input : Bytes) : Except Errc (Bytes × Bytes) :=
  if input.length < 2 then .error .noBufferSpace
  else
    (decodePercentEncodedByte input).bind fun (byteValue, input) =>
      let seqLen := utf8SequenceSize byteValue
      if seqLen = 0 ∨ seqLen > 4 then .error .illegalByteSequence
      else if seqLen = 1 then .ok ([byteValue], input)
      else if input.length < (seqLen - 1) * 3 then .error .noBufferSpace
      else
        (decodePercentEncodedBytes (seqLen - 1) input).bind fun (bytes, input) =>
          match utf8Decode (byteValue :: bytes) with
          | (.ok _, []) => .ok (byteValue :: bytes, input)
          | _ => .error .illegalByteSequence

theorem decodePercentEncodedByte_length {input rest : Bytes} {byte : UInt8}
    (h : decodePercentEncodedByte input = .ok (byte, rest)) : rest.length < input.length := by
  cases input with
  | nil => cases h
  | cons ch1 input =>
      cases input with
      | nil => cases h
      | cons ch2 input =>
          rw [decodePercentEncodedByte] at h
          split at h
          · cases h
            simp only [List.length_cons]
            omega
          · cases h

theorem decodePercentEncodedBytes_length {n : Nat} {input bytes rest : Bytes}
    (h : decodePercentEncodedBytes n input = .ok (bytes, rest)) : rest.length ≤ input.length := by
  induction n generalizing input bytes rest with
  | zero =>
      cases h
      exact Nat.le_refl _
  | succ n ih =>
      cases input with
      | nil => cases h
      | cons ch input =>
          rw [decodePercentEncodedBytes] at h
          split at h
          · cases h
          cases hbyte : decodePercentEncodedByte input with
          | error e => rw [hbyte] at h; cases h
          | ok r =>
              rw [hbyte] at h
              simp only [Except.bind] at h
              cases hbytes : decodePercentEncodedBytes n r.2 with
              | error e => rw [hbytes] at h; cases h
              | ok r' =>
                  rw [hbytes] at h
                  cases h
                  have := decodePercentEncodedByte_length hbyte
                  have := ih hbytes
                  rw [List.length_cons]
                  omega

theorem decodeEscape_length {input bytes rest : Bytes} (h : decodeEscape input = .ok (bytes, rest)) :
    rest.length < input.length := by
  rw [decodeEscape] at h
  split at h
  · cases h
  cases hbyte : decodePercentEncodedByte input with
  | error e => rw [hbyte] at h; cases h
  | ok r =>
      rw [hbyte] at h
      simp only [Except.bind] at h
      have hlt := decodePercentEncodedByte_length hbyte
      split at h
      · cases h
      split at h
      · cases h
        exact hlt
      split at h
      · cases h
      cases hbytes : decodePercentEncodedBytes (utf8SequenceSize r.1 - 1) r.2 with
      | error e => rw [hbytes] at h; cases h
      | ok r' =>
          rw [hbytes] at h
          have hle := decodePercentEncodedBytes_length hbytes
          simp only at h
          split at h
          · cases h
            omega
          · cases h

/-- `get_perecent_decoded_size` and `do_percent_decode`, which writes what the former has gone through. -/
def doPercentDecode (encodeSetF : Nat → Bool) (input : Bytes) : Except Errc Bytes :=
  match input with
  | [] => .ok []
  | ch :: input =>
    if encodeSetF (charCodepoint ch) then (doPercentDecode encodeSetF input).map (ch :: ·)
    else if ch ≠ 0x25 then .error .illegalByteSequence
    else
      match _h : decodeEscape input with
      | .ok (bytes, rest) => (doPercentDecode encodeSetF rest).map (bytes ++ ·)
      | .error e => .error e
termination_by input.length
decreasing_by
  · exact Nat.lt_succ_self _
  · have := decodeEscape_length _h
    exact Nat.lt_succ_of_lt this

/-- `percent_decode`; what it appends. -/
def percentDecode (input : Bytes) : Except Errc Bytes := doPercentDecode isUnreservedCharacter input

/-! ## Buffers

The writers are loops of their own, which are given an encode set again. They have no result where an assertion does not
hold or where a character is read behind the end of the input. -/

/-- `get_perecent_decoded_size`. -/
def getPerecentDecodedSize (encodeSetF : Nat → Bool) (input : Bytes) : Except Errc Nat :=
  match input with
  | [] => .ok 0
  | ch :: input =>
    if encodeSetF (charCodepoint ch) then (getPerecentDecodedSize encodeSetF input).map (1 + ·)
    else if ch ≠ 0x25 then .error .illegalByteSequence
    else
      match _h : decodeEscape input with
      | .ok (bytes, rest) => (getPerecentDecodedSize encodeSetF rest).map (bytes.length + ·)
      | .error e => .error e
termination_by input.length
decreasing_by
  · exact Nat.lt_succ_self _
  · have := decodeEscape_length _h
    exact Nat.lt_succ_of_lt this

/-- The variables of the writers. -/
structure Writer where
  input : Bytes
  output : Bytes := []

/-- A pass of the loop of `do_percent_encode`. -/
def percentEncodePass (encodeSetF : Nat → Bool) (w : Writer) : Lib.Pass Writer (Option Bytes) :=
  match w.input with
  | [] => .done (some w.output)
  | ch :: input =>
    if encodeSetF ch.toNat then .next ⟨input, w.output ++ [ch]⟩
    else
      let inSeqLen := utf8SequenceSize ch
      if w.input.length < inSeqLen then .done none
      else .next ⟨w.input.drop inSeqLen, w.output ++ (w.input.take inSeqLen).flatMap percentByte⟩

/-- A pass of the loop of `do_percent_decode`. -/
def percentDecodePass (encodeSetF : Nat → Bool) (w : Writer) : Lib.Pass Writer (Option Bytes) :=
  match w.input with
  | [] => .done (some w.output)
  | ch :: input =>
    if encodeSetF (charCodepoint ch) then .next ⟨input, w.output ++ [ch]⟩
    else if ch ≠ 0x25 then .done none
    else
      match decodePercentEncodedByte input with
      | .error _ => .done none
      | .ok (byteValue, input) =>
        let seqLen := utf8SequenceSize byteValue
        if seqLen = 0 ∨ seqLen > 4 then .done none
        else
          match decodePercentEncodedBytes (seqLen - 1) input with
          | .error _ => .done none
          | .ok (bytes, input) => .next ⟨input, w.output ++ byteValue :: bytes⟩

/-- What a writer puts into the memory that is prepared for it. A text that has as many bytes is copied. -/
def Writes (pass : Writer → Lib.Pass Writer (Option Bytes)) (input : Bytes) (prepared : Nat) (r : Option Bytes) : Prop :=
  if prepared = 0 then r = some []
  else if input.length = prepared then r = some input
  else Lib.Returns pass { input } r

/-- `percent_encode`, which prepares as many bytes as it has counted. -/
def PercentEncodes (encodeSetF : Nat → Bool) (input : Bytes) (prepared : Nat) (r : Option Bytes) : Prop :=
  getPerecentEncodedSize encodeSetF input = .ok prepared ∧ Writes (percentEncodePass encodeSetF) input prepared r

/-- `percent_decode`, which counts with the default set. -/
def PercentDecodes (encodeSetF : Nat → Bool) (input : Bytes) (prepared : Nat) (r : Option Bytes) : Prop :=
  getPerecentDecodedSize isUnreservedCharacter input = .ok prepared ∧
    Writes (percentDecodePass encodeSetF) input prepared r

/-! ## Components (src/net/url/url.cpp) -/

/-- What `percent_decode` with a set appends. It appends nothing where there is an error. -/
def DecodesWith (encodeSet : List PerecentEncodeSetItem) (input : Bytes) (r : Option Bytes) : Prop :=
  ∃ prepared, PercentDecodes (isUnreservedCharacterSet encodeSet) input prepared r

def UrlPercentDecodeUserinfo : Bytes → Option Bytes → Prop := DecodesWith userinfoPercentEncodeSet

def UrlPercentDecodeHost : Bytes → Option Bytes → Prop := DecodesWith c0ControlPercentEncodeSet

def UrlPercentDecodePath : Bytes → Option Bytes → Prop := DecodesWith pathPercentEncodeSet

def UrlPercentDecodeQuery : Bytes → Option Bytes → Prop := DecodesWith queryPercentEncodeSet

def UrlPercentDecodeFragment : Bytes → Option Bytes → Prop := DecodesWith fragmentPercentEncodeSet

/-- The components, each with its encode set and its decoder. -/
inductive UrlComponent where
  | userinfo
  | host
  | path
  | query
  | fragment
  deriving DecidableEq

def UrlComponent.encodeSet : UrlComponent → List PerecentEncodeSetItem
  | .userinfo => userinfoPercentEncodeSet
  | .host => c0ControlPercentEncodeSet
  | .path => pathPercentEncodeSet
  | .query => queryPercentEncodeSet
  | .fragment => fragmentPercentEncodeSet

def UrlComponent.Decodes : UrlComponent → Bytes → Option Bytes → Prop
  | .userinfo => UrlPercentDecodeUserinfo
  | .host => UrlPercentDecodeHost
  | .path => UrlPercentDecodePath
  | .query => UrlPercentDecodeQuery
  | .fragment => UrlPercentDecodeFragment

end Rad.Url
