import Rad.Hpack.Lemmas.Wire
import Mathlib.Data.Nat.Digits.Defs

/-!
# The codes of HPACK

Strings in the Huffman code and integers with a prefix: what is encoded is decoded again, and what is decoded at all.
-/

namespace Rad.Hpack

open Lib

/-! ## The Huffman code -/

/-- Every string is encoded in the bytes that were counted for it, with the memory behind them left alone, and is
decoded to itself. -/
theorem huffman_round_trip (text rest : Bytes) :
    ∃ out, out.length = encodedHuffmanLen text ∧
      (encodeHuffman text (List.replicate (encodedHuffmanLen text) 0 ++ rest)).1 = out ++ rest ∧
      decodedHuffmanLen out = text.length ∧ decodeHuffman out = (text, none) := by
  obtain ⟨out, hlength, hmem, hdecode⟩ := encodeHuffman_spec text rest
  exact ⟨out, hlength, hmem, decodedHuffmanLen_of_ok hdecode, hdecode⟩

/-- The count of the first pass is the count of the symbols that are written, and zero behind an error. -/
theorem decodedHuffmanLen_agrees (b : Bytes) :
    ((decodeHuffman b).2 = none → (decodeHuffman b).1.length = decodedHuffmanLen b) ∧
      ((decodeHuffman b).2 ≠ none → decodedHuffmanLen b = 0) := by
  rw [decodedHuffmanLen_eq]
  generalize decodeHuffman b = r
  obtain ⟨symbols, ec⟩ := r
  cases ec with
  | none => exact ⟨fun _ => rfl, fun h => absurd rfl h⟩
  | some ec => exact ⟨nofun, fun _ => rfl⟩

/-- What is decoded to a text is the encoding of the text. -/
def Canonical (b : Bytes) : Prop :=
  ∀ text, decodeHuffman b = (text, none) → text ≠ [] →
    (encodeHuffman text (List.replicate (encodedHuffmanLen text) 0)).1 = b

/-- The code words of a text, and a byte of padding or more behind them. -/
def OverPadded (b : Bytes) : Prop :=
  ∃ text k, text ≠ [] ∧ 8 ≤ k ∧ k < 30 ∧ bitsOf b = text.flatMap codeWord ++ List.replicate k true

/-- The paddings of a text that fill its last byte. -/
theorem eq_padding {len k n : Nat} (h : len + k = 8 * n) (hk : k < 8) : k = padding len := by
  unfold padding
  omega

/-- A string is decoded canonically unless a byte of its bits or more is padding. -/
theorem canonical_iff (b : Bytes) : Canonical b ↔ ¬OverPadded b := by
  constructor
  · rintro hcanonical ⟨text, k, hne, hlong, hk, hbits⟩
    have hdecode : decodeHuffman b = (text, none) := decodeHuffman_eq_iff.2 ⟨k, hk, hbits⟩
    obtain ⟨out, -, hmem, hout⟩ := encodeHuffman_bits text []
    rw [List.append_nil, List.append_nil, hcanonical text hdecode hne] at hmem
    rw [← hmem, hbits] at hout
    have hlength := congrArg List.length hout
    have hpadding := padding_lt (text.flatMap codeWord).length
    simp only [List.length_append, List.length_replicate] at hlength
    omega
  · intro hpadded text hdecode hne
    obtain ⟨k, hk, hbits⟩ := decodeHuffman_eq_iff.1 hdecode
    have hshort : k < 8 := by
      by_contra hlong
      exact hpadded ⟨text, k, hne, by omega, hk, hbits⟩
    obtain ⟨out, -, hmem, hout⟩ := encodeHuffman_bits text []
    rw [List.append_nil, List.append_nil] at hmem
    have hlength := congrArg List.length hbits
    rw [length_bitsOf, List.length_append, List.length_replicate] at hlength
    rw [hmem]
    exact bitsOf_inj (by rw [hout, hbits, eq_padding hlength.symm hshort])

/-- An `a` with a byte of ones behind it. -/
theorem not_canonical_a : ¬Canonical [0x1f, 0xff] := by
  intro hcanonical
  have hdecode : decodeHuffman [0x1f, 0xff] = (ascii "a", none) :=
    decodeHuffman_eq_iff.2 ⟨11, by decide, by decide +kernel⟩
  obtain ⟨out, hlength, hmem, -⟩ := encodeHuffman_bits (ascii "a") []
  rw [List.append_nil, List.append_nil, hcanonical _ hdecode (by decide)] at hmem
  rw [← hmem] at hlength
  exact absurd hlength (by decide)

/-! ## Integers -/

/-- The bytes behind the prefix that the loop of the decoder meets: through the first one without the top bit. -/
def continuationBytes : Bytes → Bytes
  | [] => []
  | nextByte :: rest => if nextByte &&& 128 = 128 then nextByte :: continuationBytes rest else [nextByte]

/-- One of the bytes ends the integer. -/
def Terminated (p : Bytes) : Prop := ∃ b ∈ p, ¬b &&& 128 = 128

/-- The number that groups of seven bits write, lowest first. -/
def groupsValue (groups : Bytes) : Nat := Nat.ofDigits 128 (groups.map fun b => b.toNat % 128)

/-- The values of the counter `m` that the loop shifts by. -/
def shiftCounts (m : Nat) : Bytes → List Nat
  | [] => []
  | nextByte :: rest => m :: if nextByte &&& 128 = 128 then shiftCounts ((m + 7) % 256) rest else []

/-- The value that the bytes of an integer write: the prefix, and the groups when it is all ones. -/
def integerValue (n : Nat) : Bytes → Nat
  | [] => 0
  | p :: rest =>
    if p.toNat % 2 ^ n < 2 ^ n - 1 then p.toNat % 2 ^ n else 2 ^ n - 1 + groupsValue (continuationBytes rest)

/-- The shifts of a call. -/
def integerShifts (n : Nat) : Bytes → List Nat
  | [] => []
  | p :: rest => if p.toNat % 2 ^ n < 2 ^ n - 1 then [] else shiftCounts 0 rest

/-- `hpack_decode_integer` fails or stores what the bytes write, and it never shifts out of the value. -/
structure DecodesExactly (n : Nat) (p : Bytes) : Prop where
  value {len i : Nat} (h : hpackDecodeInteger n p = some (len, i)) : i = integerValue n p ∧ i < 2 ^ 64
  shifts : ∀ m ∈ integerShifts n p, m < 64
  /-- The counter does not wrap. -/
  counter {k m : Nat} (h : (integerShifts n p)[k]? = some m) : m = 7 * k

/-- Behind a prefix of ones there are at most ten groups, and what is written fits in 64 bits. -/
def FitsInteger (n : Nat) : Bytes → Prop
  | [] => True
  | p :: rest => p.toNat % 2 ^ n < 2 ^ n - 1 ∨
    (continuationBytes rest).length ≤ 10 ∧
      (Terminated rest → 2 ^ n - 1 + groupsValue (continuationBytes rest) < 2 ^ 64)

theorem groupsValue_cons (b : UInt8) (groups : Bytes) :
    groupsValue (b :: groups) = b.toNat % 128 + 128 * groupsValue groups := by
  simp [groupsValue, Nat.ofDigits_cons]

theorem terminated_cons (b : UInt8) (p : Bytes) : Terminated (b :: p) ↔ ¬b &&& 128 = 128 ∨ Terminated p := by
  simp [Terminated]

/-- While the counter is `7 * k` and at most ten groups are met in all, the loop adds what they write, modulo
`2 ^ 64`. -/
theorem decodeIntegerTail_eq (p : Bytes) : ∀ (acc k : Nat), (continuationBytes p).length + k ≤ 10 →
    (¬Terminated p → decodeIntegerTail acc (7 * k) p = none) ∧
      (Terminated p → decodeIntegerTail acc (7 * k) p = some ((continuationBytes p).length,
        (acc + groupsValue (continuationBytes p) * 2 ^ (7 * k)) % 2 ^ 64)) := by
  induction p with
  | nil =>
      intro acc k _
      refine ⟨fun _ => rfl, fun h => ?_⟩
      obtain ⟨b, hb, -⟩ := h
      cases hb
  | cons b rest ih =>
      intro acc k hk
      simp only [decodeIntegerTail, continuationBytes, terminated_cons] at hk ⊢
      by_cases hb : b &&& 128 = 128
      · simp only [if_pos hb, List.length_cons] at hk
        have hshift : 7 * k % 64 = 7 * k := Nat.mod_eq_of_lt (by omega)
        have hcount : (7 * k + 7) % 256 = 7 * (k + 1) := by rw [Nat.mod_eq_of_lt (by omega)]; omega
        have hsum (v : Nat) : b.toNat % 128 * 2 ^ (7 * k) + v * 2 ^ (7 * (k + 1)) =
            (b.toNat % 128 + 128 * v) * 2 ^ (7 * k) := by
          rw [Nat.mul_add, Nat.pow_add, Nat.add_mul]
          ring
        obtain ⟨hnone, hsome⟩ := ih ((acc + b.toNat % 128 * 2 ^ (7 * k)) % 2 ^ 64) (k + 1) (by omega)
        simp only [hshift, hcount, hb, not_true_eq_false, false_or]
        refine ⟨fun h => by rw [hnone h]; rfl, fun h => ?_⟩
        rw [if_pos trivial, if_pos trivial, hsome h, Nat.mod_add_mod, Nat.add_assoc, hsum, groupsValue_cons]
        rfl
      · simp only [if_neg hb, List.length_singleton] at hk
        have hshift : 7 * k % 64 = 7 * k := Nat.mod_eq_of_lt (by omega)
        simp [hb, hshift, groupsValue]

/-- With ten groups at most the counter counts the bits that are added. -/
theorem shiftCounts_eq (p : Bytes) : ∀ k, (continuationBytes p).length + k ≤ 10 →
    shiftCounts (7 * k) p = (List.range' k (continuationBytes p).length).map (7 * ·) := by
  induction p with
  | nil => exact fun _ _ => rfl
  | cons b rest ih =>
      intro k hk
      simp only [continuationBytes] at hk ⊢
      rw [shiftCounts]
      by_cases hb : b &&& 128 = 128
      · rw [if_pos hb, List.length_cons] at hk
        rw [if_pos hb, if_pos hb, List.length_cons, List.range'_succ, List.map_cons,
          show (7 * k + 7) % 256 = 7 * (k + 1) by omega, ih (k + 1) (by omega)]
      · rw [if_neg hb, if_neg hb]
        rfl

/-- The eleventh group is shifted by 70. -/
theorem shiftCounts_eleventh (p : Bytes) : ∀ k ≤ 10, 10 < (continuationBytes p).length + k →
    70 ∈ shiftCounts (7 * k) p := by
  induction p with
  | nil =>
      intro k hk hlong
      simp only [continuationBytes, List.length_nil] at hlong
      omega
  | cons b rest ih =>
      intro k hk hlong
      rw [shiftCounts, List.mem_cons]
      by_cases hlast : k = 10
      · exact .inl (by omega)
      · right
        simp only [continuationBytes] at hlong
        by_cases hb : b &&& 128 = 128
        · rw [if_pos hb, List.length_cons] at hlong
          rw [if_pos hb, show (7 * k + 7) % 256 = 7 * (k + 1) by omega]
          exact ih (k + 1) (by omega) (by omega)
        · rw [if_neg hb, List.length_singleton] at hlong
          omega

/-- Integers are decoded exactly while they fit. -/
theorem decodesExactly_iff {n : Nat} (hn : 2 ≤ n ∧ n ≤ 8) (p : Bytes) : DecodesExactly n p ↔ FitsInteger n p := by
  have hpow : 2 ^ n ≤ 2 ^ 8 := Nat.pow_le_pow_right (by omega) hn.2
  cases p with
  | nil => exact iff_of_true ⟨nofun, nofun, nofun⟩ trivial
  | cons b rest =>
  by_cases hprefix : b.toNat % 2 ^ n < 2 ^ n - 1
  · refine iff_of_true ⟨fun h => ?_, ?_, ?_⟩ (.inl hprefix)
    · simp only [hpackDecodeInteger, if_pos hprefix, Option.some.injEq, Prod.mk.injEq] at h
      simp only [integerValue, if_pos hprefix]
      omega
    · simp [integerShifts, hprefix]
    · simp [integerShifts, hprefix]
  have hones : b.toNat % 2 ^ n = 2 ^ n - 1 := by
    have := Nat.mod_lt b.toNat (Nat.two_pow_pos n)
    omega
  have hdecode : hpackDecodeInteger n (b :: rest) =
      (decodeIntegerTail (2 ^ n - 1) 0 rest).map fun r => (r.1 + 1, r.2) := by
    simp [hpackDecodeInteger, hones]
  have hvalue : integerValue n (b :: rest) = 2 ^ n - 1 + groupsValue (continuationBytes rest) := by
    rw [integerValue, if_neg hprefix]
  have hshifts : integerShifts n (b :: rest) = shiftCounts 0 rest := by rw [integerShifts, if_neg hprefix]
  rw [FitsInteger, or_iff_right hprefix]
  by_cases hlong : (continuationBytes rest).length ≤ 10
  · rw [and_iff_right hlong]
    obtain ⟨hnone, hsome⟩ := decodeIntegerTail_eq rest (2 ^ n - 1) 0 hlong
    simp only [Nat.mul_zero, Nat.pow_zero, Nat.mul_one] at hnone hsome
    constructor
    · intro hexact hterminated
      rw [hsome hterminated] at hdecode
      obtain ⟨hi, hlt⟩ := hexact.value hdecode
      rw [hi, hvalue] at hlt
      exact hlt
    · intro hfits
      have hcounts := shiftCounts_eq rest 0 hlong
      rw [← hshifts] at hcounts
      refine ⟨fun h => ?_, fun m hm => ?_, fun {k m} h => ?_⟩
      · by_cases hterminated : Terminated rest
        · have hlt := hfits hterminated
          rw [hdecode, hsome hterminated, Nat.mod_eq_of_lt hlt] at h
          cases h
          exact ⟨hvalue.symm, hlt⟩
        · rw [hdecode, hnone hterminated] at h
          cases h
      · rw [hcounts, List.mem_map] at hm
        obtain ⟨k, hk, rfl⟩ := hm
        rw [List.mem_range'_1] at hk
        omega
      · rw [hcounts, List.getElem?_map, Option.map_eq_some_iff] at h
        obtain ⟨j, hj, rfl⟩ := h
        rw [List.getElem?_eq_some_iff] at hj
        obtain ⟨_, rfl⟩ := hj
        simp
  · refine iff_of_false (fun hexact => ?_) fun h => hlong h.1
    have hmem := shiftCounts_eleventh rest 0 (by omega) (by omega)
    rw [Nat.mul_zero, ← hshifts] at hmem
    exact absurd (hexact.shifts 70 hmem) (by omega)

/-- The greatest value of 64 bits behind a prefix of five. -/
theorem decodesExactly_greatest :
    DecodesExactly 5 [0x1f, 0xe0, 0xff, 0xff, 0xff, 0xff, 0xff, 0xff, 0xff, 0xff, 0x01] := by
  refine (decodesExactly_iff (by decide) _).2 (.inr ⟨by decide, fun _ => by decide⟩)

/-- Ten groups of zeros and a one, which is shifted by 70. -/
theorem decode_shifted_out :
    hpackDecodeInteger 5 (0x1f :: List.replicate 10 0x80 ++ [0x01]) = some (12, 95) ∧
      ¬DecodesExactly 5 (0x1f :: List.replicate 10 0x80 ++ [0x01]) := by
  have hdecode : hpackDecodeInteger 5 (0x1f :: List.replicate 10 0x80 ++ [0x01]) = some (12, 95) := by decide +kernel
  exact ⟨hdecode, fun h => absurd (h.value hdecode).1 (by decide +kernel)⟩

/-- Every integer is encoded in the bytes that were counted for it, and read back whatever stands above its prefix and
behind it. -/
theorem integer_round_trip {n i : Nat} (hn : 2 ≤ n ∧ n ≤ 8) (hi : i < 2 ^ 64) {high : UInt8}
    (hhigh : high.toNat % 2 ^ n = 0) (rest : Bytes) :
    (hpackEncodeInteger n i).length = hpackIntegerEncodingLen n i ∧
      hpackDecodeInteger n ((hpackEncodeInteger n i).modifyHead (· ||| high) ++ rest) =
        some (hpackIntegerEncodingLen n i, i) := by
  have hlength := length_hpackEncodeInteger n i
  refine ⟨hlength, ?_⟩
  have hor (b : UInt8) (hb : b.toNat < 2 ^ n) : (b ||| high).toNat % 2 ^ n = b.toNat := by
    rw [UInt8.toNat_or, Nat.or_mod_two_pow, hhigh, Nat.or_zero, Nat.mod_eq_of_lt hb]
  obtain ⟨b, tail, -, hbytes, hdecode⟩ := hpackEncodeInteger_modifyHead hn.2 hi hor
  have hsame : ((b ||| high) :: tail).length = hpackIntegerEncodingLen n i := by
    rw [← hlength, ← hbytes, List.length_modifyHead]
  rw [hbytes, List.cons_append, hdecode, hsame]

/-- The greatest integer with all bits above its prefix. -/
theorem integer_round_trip_greatest :
    (hpackEncodeInteger 5 (2 ^ 64 - 1)).length = hpackIntegerEncodingLen 5 (2 ^ 64 - 1) ∧
      hpackDecodeInteger 5 ((hpackEncodeInteger 5 (2 ^ 64 - 1)).modifyHead (· ||| 0xe0) ++ [7]) =
        some (hpackIntegerEncodingLen 5 (2 ^ 64 - 1), 2 ^ 64 - 1) :=
  integer_round_trip (by decide) (by decide) (by decide) [7]

end Rad.Hpack
