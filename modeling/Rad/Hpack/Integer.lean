import Mathlib.Tactic.Ring
import Rad.Text.Ascii

/-!
# HPACK integers (src/net/http2/hpack.cpp)

An integer with an `n`-bit prefix. Values are `uint64_t`, so the decoder computes modulo `2 ^ 64`.
-/

namespace Rad.Hpack

/-- The loop of `hpack_integer_encoding_len`. -/
def integerTailLen (i : Nat) : Nat := if i ≥ 128 then integerTailLen (i / 128) + 1 else 1
termination_by i
decreasing_by omega

def hpackIntegerEncodingLen (n i : Nat) : Nat :=
  let twoN1 := 2 ^ n - 1
  if i < twoN1 then 1 else 1 + integerTailLen (i - twoN1)

/-- The loop of `hpack_encode_integer`: the groups of seven bits, lowest first. -/
def encodeIntegerTail (i : Nat) : Bytes :=
  if i ≥ 128 then UInt8.ofNat (i % 128 + 128) :: encodeIntegerTail (i / 128) else [UInt8.ofNat i]
termination_by i
decreasing_by omega

/-- `hpack_encode_integer<N>`: the bytes that are written to `p`. -/
def hpackEncodeInteger (n i : Nat) : Bytes :=
  let twoN1 := 2 ^ n - 1
  if i < twoN1 then [UInt8.ofNat i] else UInt8.ofNat twoN1 :: encodeIntegerTail (i - twoN1)

/-- The loop of `hpack_decode_integer`: the count of bytes read and the value. `m` is a `uint8_t`; a shift by 64 or
more, which C++ leaves undefined, is the one of x86: the count is taken modulo 64. -/
def decodeIntegerTail (i m : Nat) : Bytes → Option (Nat × Nat)
  | [] => none
  | nextByte :: rest =>
    let twoM := 2 ^ (m % 64)
    let i := (i + nextByte.toNat % 128 * twoM) % 2 ^ 64
    let m := (m + 7) % 256
    if nextByte &&& 128 = 128 then (decodeIntegerTail i m rest).map fun r => (r.1 + 1, r.2) else some (1, i)

/-- `hpack_decode_integer<N>`: the count of bytes read and the value. The result `0` is `none`. -/
def hpackDecodeInteger (n : Nat) : Bytes → Option (Nat × Nat)
  | [] => none
  | p :: rest =>
    let twoN1 := 2 ^ n - 1
    let i := p.toNat % 2 ^ n
    if i < twoN1 then some (1, i) else (decodeIntegerTail i 0 rest).map fun r => (r.1 + 1, r.2)

/-! ## The groups of seven bits -/

theorem and_128_eq (b : UInt8) : b &&& 128 = 128 ↔ 128 ≤ b.toNat := by
  have h : ∀ n < 256, UInt8.ofNat n &&& 128 = 128 ↔ 128 ≤ (UInt8.ofNat n).toNat := by decide +kernel
  simpa using h b.toNat b.toNat_lt

theorem length_encodeIntegerTail (i : Nat) : (encodeIntegerTail i).length = integerTailLen i := by
  induction i using Nat.strongRecOn with
  | ind i ih =>
      rw [encodeIntegerTail, integerTailLen]
      split
      · rw [List.length_cons, ih (i / 128) (by omega)]
      · rfl

theorem length_hpackEncodeInteger (n i : Nat) : (hpackEncodeInteger n i).length = hpackIntegerEncodingLen n i := by
  simp only [hpackEncodeInteger, hpackIntegerEncodingLen]
  split
  · rfl
  · rw [List.length_cons, length_encodeIntegerTail, Nat.add_comm]

/-- The decoder's loop adds the groups to what it has, from the bit `m` on. The counter `m` stays below 64 as long as
the value has bits left. -/
theorem decodeIntegerTail_encode (i : Nat) : ∀ (acc m : Nat) (rest : Bytes), m < 64 → acc + i * 2 ^ m < 2 ^ 64 →
    decodeIntegerTail acc m (encodeIntegerTail i ++ rest) = some (integerTailLen i, acc + i * 2 ^ m) := by
  induction i using Nat.strongRecOn with
  | ind i ih =>
      intro acc m rest hm hlt
      rw [encodeIntegerTail, integerTailLen]
      by_cases hi : i ≥ 128
      · have hbyte : (UInt8.ofNat (i % 128 + 128)).toNat = i % 128 + 128 := by
          rw [UInt8.toNat_ofNat']; exact Nat.mod_eq_of_lt (by omega)
        have hsum : i % 128 * 2 ^ m + i / 128 * 2 ^ (m + 7) = i * 2 ^ m := by
          rw [Nat.pow_add, ← Nat.mul_assoc, Nat.mul_right_comm, ← Nat.add_mul, Nat.mul_comm _ (2 ^ 7)]
          rw [show i % 128 + 2 ^ 7 * (i / 128) = i from Nat.mod_add_div i 128]
        have hm7 : m + 7 < 64 := by
          by_contra hge
          have h1 : 1 * 2 ^ 64 ≤ i / 128 * 2 ^ (m + 7) :=
            Nat.mul_le_mul (by omega) (Nat.pow_le_pow_right (by omega) (by omega))
          omega
        have hmod : (i % 128 + 128) % 128 = i % 128 := by omega
        simp only [if_pos hi, List.cons_append, decodeIntegerTail, hbyte, hmod, Nat.mod_eq_of_lt hm,
          (and_128_eq _).mpr (show 128 ≤ (UInt8.ofNat (i % 128 + 128)).toNat by omega), if_true]
        rw [Nat.mod_eq_of_lt (show acc + i % 128 * 2 ^ m < 2 ^ 64 by omega),
          Nat.mod_eq_of_lt (show m + 7 < 256 by omega),
          ih (i / 128) (by omega) _ _ rest hm7 (by omega)]
        simp only [Option.map_some, Option.some.injEq, Prod.mk.injEq, true_and]
        omega
      · have hbyte : (UInt8.ofNat i).toNat = i := by
          rw [UInt8.toNat_ofNat']; exact Nat.mod_eq_of_lt (by omega)
        have hcont : ¬ UInt8.ofNat i &&& 128 = 128 := by rw [and_128_eq, hbyte]; omega
        have hmod : i % 128 = i := Nat.mod_eq_of_lt (by omega)
        simp only [if_neg hi, List.cons_append, List.nil_append, decodeIntegerTail, hbyte, hmod,
          Nat.mod_eq_of_lt hm, if_neg hcont, Nat.mod_eq_of_lt hlt]

theorem hpackDecodeInteger_encode {n i : Nat} (hn : n ≤ 8) (hi : i < 2 ^ 64) {b : UInt8} {tail : Bytes}
    (hb : hpackEncodeInteger n i = b :: tail) {b' : UInt8} (hb' : b'.toNat % 2 ^ n = b.toNat) (rest : Bytes) :
    hpackDecodeInteger n (b' :: tail ++ rest) = some ((b' :: tail).length, i) := by
  have hpow : 2 ^ n ≤ 2 ^ 8 := Nat.pow_le_pow_right (by omega) hn
  simp only [hpackEncodeInteger] at hb
  rw [List.cons_append, hpackDecodeInteger, hb']
  by_cases hlt : i < 2 ^ n - 1
  · rw [if_pos hlt, List.cons.injEq] at hb
    obtain ⟨rfl, rfl⟩ := hb
    have hval : (UInt8.ofNat i).toNat = i := by
      rw [UInt8.toNat_ofNat']; exact Nat.mod_eq_of_lt (by omega)
    simp only [hval, if_pos hlt, List.length_cons, List.length_nil]
  · rw [if_neg hlt, List.cons.injEq] at hb
    obtain ⟨rfl, rfl⟩ := hb
    have hval : (UInt8.ofNat (2 ^ n - 1)).toNat = 2 ^ n - 1 := by
      rw [UInt8.toNat_ofNat']; exact Nat.mod_eq_of_lt (by omega)
    simp only [hval, lt_irrefl, if_false]
    rw [decodeIntegerTail_encode _ _ 0 rest (by omega) (by omega), ← length_encodeIntegerTail]
    simp only [Option.map_some, List.length_cons, pow_zero, Nat.mul_one, Option.some.injEq, Prod.mk.injEq, true_and]
    omega

/-! ## The decoder reads at least one byte and no more than there are -/

theorem decodeIntegerTail_bounds : ∀ {p : Bytes} {acc m len i : Nat},
    decodeIntegerTail acc m p = some (len, i) → 1 ≤ len ∧ len ≤ p.length
  | [], _, _, _, _, h => by simp [decodeIntegerTail] at h
  | b :: rest, acc, m, len, i, h => by
      simp only [decodeIntegerTail] at h
      split at h
      · obtain ⟨⟨l, v⟩, hr, he⟩ := Option.map_eq_some_iff.mp h
        have := decodeIntegerTail_bounds hr
        simp only [Prod.mk.injEq] at he
        rw [List.length_cons]; omega
      · simp only [Option.some.injEq, Prod.mk.injEq] at h
        rw [List.length_cons]; omega

theorem hpackDecodeInteger_bounds {n : Nat} {p : Bytes} {len i : Nat}
    (h : hpackDecodeInteger n p = some (len, i)) : 1 ≤ len ∧ len ≤ p.length := by
  cases p with
  | nil => simp [hpackDecodeInteger] at h
  | cons b rest =>
      simp only [hpackDecodeInteger] at h
      split at h
      · simp only [Option.some.injEq, Prod.mk.injEq] at h
        rw [List.length_cons]; omega
      · obtain ⟨⟨l, v⟩, hr, he⟩ := Option.map_eq_some_iff.mp h
        have := decodeIntegerTail_bounds hr
        simp only [Prod.mk.injEq] at he
        rw [List.length_cons]; omega

end Rad.Hpack
