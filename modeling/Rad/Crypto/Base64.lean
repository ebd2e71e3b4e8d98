import Rad.Text.Ascii

/-!
# Base64 (src/crypto/base64.cpp)

The groups are of three and of four bytes. An exception leaves the output as it is at that point, so it is a result of its
own.

What is encoded is decoded again. The decoder takes a padding character for the end of the text, wherever it stands, and
does not look at the bits behind the last byte.
-/

namespace Rad.Base64

def base64Table : Bytes := ascii "ABCDEFGHIJKLMNOPQRSTUVWXYZabcdefghijklmnopqrstuvwxyz0123456789+/"

/-- `base64_table[i]`. -/
def digit (i : UInt8) : UInt8 := base64Table.getD i.toNat 0

/-- `base64::encode`; what it appends. -/
def encode : Bytes → Bytes
  | [] => []
  | [a] => [digit (a >>> 2), digit ((a &&& 0b00000011) <<< 4), '='.toUInt8, '='.toUInt8]
  | [a, b] =>
    [digit (a >>> 2), digit (((a &&& 0b00000011) <<< 4) ||| (b >>> 4)), digit ((b &&& 0b00001111) <<< 2), '='.toUInt8]
  | a :: b :: c :: input =>
    digit (a >>> 2) :: digit ((b >>> 4) ||| ((a &&& 0b00000011) <<< 4)) ::
      digit ((c >>> 6) ||| ((b &&& 0b00001111) <<< 2)) :: digit (c &&& 0b00111111) :: encode input

/-- `index_of`; the padding has an index too. -/
def indexOf (ch : UInt8) : Option UInt8 :=
  if 'A'.toUInt8 ≤ ch ∧ ch ≤ 'Z'.toUInt8 then some (ch - 'A'.toUInt8)
  else if 'a'.toUInt8 ≤ ch ∧ ch ≤ 'z'.toUInt8 then some (ch - 'a'.toUInt8 + 26)
  else if '0'.toUInt8 ≤ ch ∧ ch ≤ '9'.toUInt8 then some (ch - '0'.toUInt8 + 52)
  else if ch = '+'.toUInt8 then some 62
  else if ch = '/'.toUInt8 then some 63
  else if ch = '='.toUInt8 then some 0
  else none

def firstByte (i₀ i₁ : UInt8) : UInt8 := (i₀ <<< 2) ||| ((i₁ &&& 0b00110000) >>> 4)

def secondByte (i₁ i₂ : UInt8) : UInt8 := (i₁ <<< 4) ||| ((i₂ &&& 0b00111100) >>> 2)

def thirdByte (i₂ i₃ : UInt8) : UInt8 := (i₂ <<< 6) ||| (i₃ &&& 0b00111111)

/-- The bytes of a group, by the place of the first padding character. -/
def decodeGroup (paddingAt : Nat) (i₀ i₁ i₂ i₃ : UInt8) : Bytes :=
  match paddingAt with
  | 0 => []
  | 1 => [i₀ <<< 2]
  | 2 => [firstByte i₀ i₁]
  | 3 => [firstByte i₀ i₁, secondByte i₁ i₂]
  | _ => [firstByte i₀ i₁, secondByte i₁ i₂, thirdByte i₂ i₃]

/-- The loop over the groups, which ends behind a group with padding: the bytes that it writes. An exception is thrown where
a character has no index; the bytes of the groups in front of it have been written. -/
def decodeGroups : Bytes → Except Bytes Bytes
  | e₀ :: e₁ :: e₂ :: e₃ :: encoded =>
    match indexOf e₀, indexOf e₁, indexOf e₂, indexOf e₃ with
    | some i₀, some i₁, some i₂, some i₃ =>
      let paddingAt := [e₀, e₁, e₂, e₃].idxOf '='.toUInt8
      let decGroup := decodeGroup paddingAt i₀ i₁ i₂ i₃
      if paddingAt < 4 then .ok decGroup
      else ((decodeGroups encoded).map (decGroup ++ ·)).mapError (decGroup ++ ·)
    | _, _, _, _ => .error []
  | _ => .ok []

/-- How a call ends, with what it leaves of the output. -/
inductive Outcome where
  | returned (output : Bytes)
  | thrown (output : Bytes)
  deriving DecidableEq

/-- `base64::decode`. For the bytes of all the groups `increase_size` has added memory to the output. -/
def decode (increaseSize : Nat → Bytes) (encoded output : Bytes) : Outcome :=
  if encoded = [] then .returned output
  else if encoded.length % 4 ≠ 0 then .thrown output
  else
    match decodeGroups encoded with
    | .ok decoded => .returned (output ++ decoded)
    | .error written => .thrown (output ++ written ++ (increaseSize (encoded.length / 4 * 3)).drop written.length)

/-! ## Bits -/

section

variable {x y k : UInt8} {n : Nat}

theorem toNat_shiftRight (hk : k.toNat = n) (hn : n < 8) : (x >>> k).toNat = x.toNat / 2 ^ n := by
  rw [UInt8.toNat_shiftRight, hk, Nat.mod_eq_of_lt hn, Nat.shiftRight_eq_div_pow]

theorem toNat_shiftLeft (hk : k.toNat = n) (hn : n < 8) : (x <<< k).toNat = x.toNat * 2 ^ n % 256 := by
  rw [UInt8.toNat_shiftLeft, hk, Nat.mod_eq_of_lt hn, Nat.shiftLeft_eq]

theorem toNat_and (hk : k.toNat = 2 ^ n - 1) : (x &&& k).toNat = x.toNat % 2 ^ n := by
  rw [UInt8.toNat_and, hk, Nat.and_two_pow_sub_one_eq_mod]

theorem toNat_shiftLeft_or (hk : k.toNat = n) (hn : n < 8) (hy : y.toNat < 2 ^ n) :
    ((x <<< k) ||| y).toNat = x.toNat * 2 ^ n % 256 + y.toNat := by
  have hsplit : x.toNat * 2 ^ n % 256 = (x.toNat % 2 ^ (8 - n)) <<< n := by
    rw [Nat.shiftLeft_eq, ← Nat.mul_mod_mul_right, ← Nat.pow_add, Nat.sub_add_cancel (by omega)]
  rw [UInt8.toNat_or, toNat_shiftLeft hk hn, hsplit, ← Nat.shiftLeft_add_eq_or_of_lt hy]

end

/-- The numbers of the digits of a group. -/
theorem digits_toNat (a b c : UInt8) :
    (a >>> 2).toNat = a.toNat / 4 ∧ ((a &&& 0b00000011) <<< 4).toNat = a.toNat % 4 * 16 ∧
      (((a &&& 0b00000011) <<< 4) ||| (b >>> 4)).toNat = a.toNat % 4 * 16 + b.toNat / 16 ∧
      ((b &&& 0b00001111) <<< 2).toNat = b.toNat % 16 * 4 ∧
      (((b &&& 0b00001111) <<< 2) ||| (c >>> 6)).toNat = b.toNat % 16 * 4 + c.toNat / 64 ∧
      (c &&& 0b00111111).toNat = c.toNat % 64 := by
  have hb := b.toNat_lt
  have hc := c.toNat_lt
  have ha2 : (a &&& 0b00000011).toNat = a.toNat % 4 := toNat_and (n := 2) rfl
  have hb4 : (b &&& 0b00001111).toNat = b.toNat % 16 := toNat_and (n := 4) rfl
  have hb4' : (b >>> 4).toNat = b.toNat / 16 := toNat_shiftRight (n := 4) rfl (by decide)
  have hc6 : (c >>> 6).toNat = c.toNat / 64 := toNat_shiftRight (n := 6) rfl (by decide)
  refine ⟨toNat_shiftRight (n := 2) rfl (by decide), ?_, ?_, ?_, ?_, toNat_and (n := 6) rfl⟩
  · rw [toNat_shiftLeft (n := 4) rfl (by decide), ha2]
    omega
  · rw [toNat_shiftLeft_or (n := 4) rfl (by decide) (by omega), ha2, hb4']
    omega
  · rw [toNat_shiftLeft (n := 2) rfl (by decide), hb4]
    omega
  · rw [toNat_shiftLeft_or (n := 2) rfl (by decide) (by omega), hb4, hc6]
    omega

/-- The numbers of the bytes of a group. -/
theorem bytes_toNat (i₀ i₁ i₂ i₃ : UInt8) :
    (firstByte i₀ i₁).toNat = i₀.toNat * 4 % 256 + i₁.toNat / 16 % 4 ∧
      (secondByte i₁ i₂).toNat = i₁.toNat * 16 % 256 + i₂.toNat / 4 % 16 ∧
      (thirdByte i₂ i₃).toNat = i₂.toNat * 64 % 256 + i₃.toNat % 64 := by
  have hmask {x m k : UInt8} {n w : Nat} (hk : k.toNat = n) (hn : n < 8) (hm : m.toNat >>> n = 2 ^ w - 1) :
      ((x &&& m) >>> k).toNat = x.toNat / 2 ^ n % 2 ^ w := by
    rw [UInt8.toNat_shiftRight, UInt8.toNat_and, hk, Nat.mod_eq_of_lt hn, Nat.shiftRight_and_distrib, hm,
      Nat.and_two_pow_sub_one_eq_mod, Nat.shiftRight_eq_div_pow]
  have h1 : ((i₁ &&& 0b00110000) >>> 4).toNat = i₁.toNat / 16 % 4 := hmask (n := 4) (w := 2) rfl (by decide) rfl
  have h2 : ((i₂ &&& 0b00111100) >>> 2).toNat = i₂.toNat / 4 % 16 := hmask (n := 2) (w := 4) rfl (by decide) rfl
  have h3 : (i₃ &&& 0b00111111).toNat = i₃.toNat % 64 := toNat_and (n := 6) rfl
  refine ⟨?_, ?_, ?_⟩
  · exact (toNat_shiftLeft_or (n := 2) rfl (by decide) (by omega)).trans (congrArg (i₀.toNat * 4 % 256 + ·) h1)
  · exact (toNat_shiftLeft_or (n := 4) rfl (by decide) (by omega)).trans (congrArg (i₁.toNat * 16 % 256 + ·) h2)
  · exact (toNat_shiftLeft_or (n := 6) rfl (by decide) (by omega)).trans (congrArg (i₂.toNat * 64 % 256 + ·) h3)

/-! ## The alphabet -/

theorem index_digit {i : UInt8} (h : i.toNat < 64) : indexOf (digit i) = some i ∧ digit i ≠ '='.toUInt8 := by
  have hall : ∀ n < 64, indexOf (digit (UInt8.ofNat n)) = some (UInt8.ofNat n) ∧ digit (UInt8.ofNat n) ≠ '='.toUInt8 := by
    decide +kernel
  have := hall i.toNat h
  rwa [UInt8.ofNat_toNat] at this

/-- The characters of encoded texts. -/
def IsEncoded (ch : UInt8) : Prop := ch ∈ base64Table ∨ ch = '='.toUInt8

instance (ch : UInt8) : Decidable (IsEncoded ch) := inferInstanceAs (Decidable (_ ∨ _))

theorem indexOf_isSome_iff {ch : UInt8} : (indexOf ch).isSome = true ↔ IsEncoded ch := by
  constructor
  · have hall : ∀ n < 256, (indexOf (UInt8.ofNat n)).isSome = true → IsEncoded (UInt8.ofNat n) := by decide +kernel
    have := hall ch.toNat ch.toNat_lt
    rwa [UInt8.ofNat_toNat] at this
  · have hall : ∀ ch ∈ base64Table, (indexOf ch).isSome = true := by decide +kernel
    rintro (h | rfl)
    · exact hall ch h
    · decide

theorem indexOf_lt {ch i : UInt8} (h : indexOf ch = some i) : i.toNat < 64 := by
  have hletters : 'A'.toUInt8 = 65 ∧ 'Z'.toUInt8 = 90 ∧ 'a'.toUInt8 = 97 ∧ 'z'.toUInt8 = 122 ∧ '0'.toUInt8 = 48 ∧
    '9'.toUInt8 = 57 := by decide
  simp only [indexOf, hletters, UInt8.le_iff_toNat_le, UInt8.reduceToNat] at h
  split_ifs at h <;> cases h <;> simp only [UInt8.toNat_add, UInt8.toNat_sub, UInt8.reduceToNat] <;> omega

/-! ## What is encoded -/

section

variable (a b c : UInt8)

theorem decode_three : firstByte (a >>> 2) ((b >>> 4) ||| ((a &&& 0b00000011) <<< 4)) = a ∧
    secondByte ((b >>> 4) ||| ((a &&& 0b00000011) <<< 4)) ((c >>> 6) ||| ((b &&& 0b00001111) <<< 2)) = b ∧
    thirdByte ((c >>> 6) ||| ((b &&& 0b00001111) <<< 2)) (c &&& 0b00111111) = c := by
  have ha := a.toNat_lt
  have hb := b.toNat_lt
  have hc := c.toNat_lt
  obtain ⟨h0, -, h1, -, h2, h3⟩ := digits_toNat a b c
  obtain ⟨hfirst, hsecond, hthird⟩ := bytes_toNat (a >>> 2) (((a &&& 0b00000011) <<< 4) ||| (b >>> 4))
    (((b &&& 0b00001111) <<< 2) ||| (c >>> 6)) (c &&& 0b00111111)
  rw [UInt8.or_comm (b >>> 4), UInt8.or_comm (c >>> 6)]
  refine ⟨UInt8.toNat_inj.1 ?_, UInt8.toNat_inj.1 ?_, UInt8.toNat_inj.1 ?_⟩
  · rw [hfirst, h0, h1]
    omega
  · rw [hsecond, h1, h2]
    omega
  · rw [hthird, h2, h3]
    omega

theorem decode_two : firstByte (a >>> 2) (((a &&& 0b00000011) <<< 4) ||| (b >>> 4)) = a ∧
    secondByte (((a &&& 0b00000011) <<< 4) ||| (b >>> 4)) ((b &&& 0b00001111) <<< 2) = b := by
  have ha := a.toNat_lt
  have hb := b.toNat_lt
  obtain ⟨h0, -, h1, h2, -⟩ := digits_toNat a b b
  obtain ⟨hfirst, hsecond, -⟩ := bytes_toNat (a >>> 2) (((a &&& 0b00000011) <<< 4) ||| (b >>> 4)) ((b &&& 0b00001111) <<< 2) 0
  refine ⟨UInt8.toNat_inj.1 ?_, UInt8.toNat_inj.1 ?_⟩
  · rw [hfirst, h0, h1]
    omega
  · rw [hsecond, h1, h2]
    omega

theorem decode_one : firstByte (a >>> 2) ((a &&& 0b00000011) <<< 4) = a := by
  have ha := a.toNat_lt
  obtain ⟨h0, h1, -⟩ := digits_toNat a a a
  obtain ⟨hfirst, -⟩ := bytes_toNat (a >>> 2) ((a &&& 0b00000011) <<< 4) 0 0
  refine UInt8.toNat_inj.1 ?_
  rw [hfirst, h0, h1]
  omega

/-- The digits of bytes are below 64. -/
theorem digits_lt : (a >>> 2).toNat < 64 ∧ ((a &&& 0b00000011) <<< 4).toNat < 64 ∧
    ((b >>> 4) ||| ((a &&& 0b00000011) <<< 4)).toNat < 64 ∧ ((b &&& 0b00001111) <<< 2).toNat < 64 ∧
    ((c >>> 6) ||| ((b &&& 0b00001111) <<< 2)).toNat < 64 ∧ (c &&& 0b00111111).toNat < 64 := by
  have ha := a.toNat_lt
  have hb := b.toNat_lt
  have hc := c.toNat_lt
  obtain ⟨h0, h1, h1', h2, h2', h3⟩ := digits_toNat a b c
  rw [UInt8.or_comm (b >>> 4), UInt8.or_comm (c >>> 6)]
  omega

end

theorem decodeGroups_encode (b : Bytes) : decodeGroups (encode b) = .ok b := by
  induction b using encode.induct with
  | case1 => rfl
  | case2 a =>
      obtain ⟨h0, h1, -⟩ := digits_lt a a a
      obtain ⟨hi0, hp0⟩ := index_digit h0
      obtain ⟨hi1, hp1⟩ := index_digit h1
      have hpad : indexOf '='.toUInt8 = some 0 := rfl
      have hat : [digit (a >>> 2), digit ((a &&& 0b00000011) <<< 4), '='.toUInt8, '='.toUInt8].idxOf '='.toUInt8 = 2 := by
        simp [hp0, hp1]
      simp only [encode, decodeGroups, hi0, hi1, hpad, hat, decodeGroup, decode_one]
      rfl
  | case3 a b =>
      obtain ⟨h0, -, h1, h2, -⟩ := digits_lt a b b
      rw [UInt8.or_comm] at h1
      obtain ⟨hi0, hp0⟩ := index_digit h0
      obtain ⟨hi1, hp1⟩ := index_digit h1
      obtain ⟨hi2, hp2⟩ := index_digit h2
      have hpad : indexOf '='.toUInt8 = some 0 := rfl
      have hat : [digit (a >>> 2), digit (((a &&& 0b00000011) <<< 4) ||| (b >>> 4)), digit ((b &&& 0b00001111) <<< 2),
          '='.toUInt8].idxOf '='.toUInt8 = 3 := by
        simp [hp0, hp1, hp2]
      obtain ⟨hfirst, hsecond⟩ := decode_two a b
      simp only [encode, decodeGroups, hi0, hi1, hi2, hpad, hat, decodeGroup, hfirst, hsecond]
      rfl
  | case4 a b c input ih =>
      obtain ⟨h0, -, h1, -, h2, h3⟩ := digits_lt a b c
      obtain ⟨hi0, hp0⟩ := index_digit h0
      obtain ⟨hi1, hp1⟩ := index_digit h1
      obtain ⟨hi2, hp2⟩ := index_digit h2
      obtain ⟨hi3, hp3⟩ := index_digit h3
      have hat : [digit (a >>> 2), digit ((b >>> 4) ||| ((a &&& 0b00000011) <<< 4)),
          digit ((c >>> 6) ||| ((b &&& 0b00001111) <<< 2)), digit (c &&& 0b00111111)].idxOf '='.toUInt8 = 4 := by
        simp [hp0, hp1, hp2, hp3]
      obtain ⟨hfirst, hsecond, hthird⟩ := decode_three a b c
      simp only [encode, decodeGroups, hi0, hi1, hi2, hi3, hat, decodeGroup, hfirst, hsecond, hthird, ih]
      rfl

theorem length_encode (b : Bytes) : (encode b).length % 4 = 0 := by
  induction b using encode.induct with
  | case1 => rfl
  | case2 a => simp [encode]
  | case3 a b => simp [encode]
  | case4 a b c input ih =>
      rw [encode, List.length_cons, List.length_cons, List.length_cons, List.length_cons]
      omega

theorem decode_encode (increaseSize : Nat → Bytes) (b output : Bytes) :
    decode increaseSize (encode b) output = .returned (output ++ b) := by
  rw [decode]
  split
  · rename_i hnil
    have hgroups := decodeGroups_encode b
    rw [hnil] at hgroups
    cases hgroups
    rw [List.append_nil]
  · rw [if_neg (not_not_intro (length_encode b)), decodeGroups_encode]

/-! ## What a text stands for -/

/-- The number of a group; a padding character counts as zero. -/
def groupNumber (e₀ e₁ e₂ e₃ : UInt8) : Nat :=
  [e₀, e₁, e₂, e₃].foldl (fun n ch => n * 64 + ((indexOf ch).getD 0).toNat) 0

/-- The bytes of a number of 24 bits. -/
def numberBytes (n : Nat) : Bytes := [UInt8.ofNat (n / 65536), UInt8.ofNat (n / 256), UInt8.ofNat n]

/-- How many bytes are taken of a group with so many characters in front of the padding. -/
def bytesOf (characters : Nat) : Nat := if characters ≤ 1 then characters else characters - 1

/-- The bytes of the groups. -/
def meaning : Bytes → Bytes
  | e₀ :: e₁ :: e₂ :: e₃ :: text =>
    (numberBytes (groupNumber e₀ e₁ e₂ e₃)).take (bytesOf ([e₀, e₁, e₂, e₃].idxOf '='.toUInt8)) ++ meaning text
  | _ => []

/-- The groups that are read: the first one with a padding character is the last one. -/
def readText : Bytes → Bytes
  | e₀ :: e₁ :: e₂ :: e₃ :: text =>
    [e₀, e₁, e₂, e₃] ++ if '='.toUInt8 ∈ [e₀, e₁, e₂, e₃] then [] else readText text
  | _ => []

theorem decodeGroup_eq {e₀ e₁ e₂ e₃ i₀ i₁ i₂ i₃ : UInt8} (h₀ : indexOf e₀ = some i₀) (h₁ : indexOf e₁ = some i₁)
    (h₂ : indexOf e₂ = some i₂) (h₃ : indexOf e₃ = some i₃) :
    decodeGroup ([e₀, e₁, e₂, e₃].idxOf '='.toUInt8) i₀ i₁ i₂ i₃ =
      (numberBytes (groupNumber e₀ e₁ e₂ e₃)).take (bytesOf ([e₀, e₁, e₂, e₃].idxOf '='.toUInt8)) := by
  have hlt0 := indexOf_lt h₀
  have hlt1 := indexOf_lt h₁
  have hlt2 := indexOf_lt h₂
  have hlt3 := indexOf_lt h₃
  obtain ⟨hfirst, hsecond, hthird⟩ := bytes_toNat i₀ i₁ i₂ i₃
  have hnumber : groupNumber e₀ e₁ e₂ e₃ = ((i₀.toNat * 64 + i₁.toNat) * 64 + i₂.toNat) * 64 + i₃.toNat := by
    simp [groupNumber, h₀, h₁, h₂, h₃]
  have hbyte {x : UInt8} {n : Nat} (h : x.toNat = n % 256) : x = UInt8.ofNat n :=
    UInt8.toNat_inj.1 (h.trans (UInt8.toNat_ofNat' ..).symm)
  have hf : firstByte i₀ i₁ = UInt8.ofNat (groupNumber e₀ e₁ e₂ e₃ / 65536) := hbyte (by rw [hfirst, hnumber]; omega)
  have hs : secondByte i₁ i₂ = UInt8.ofNat (groupNumber e₀ e₁ e₂ e₃ / 256) := hbyte (by rw [hsecond, hnumber]; omega)
  have ht : thirdByte i₂ i₃ = UInt8.ofNat (groupNumber e₀ e₁ e₂ e₃) := hbyte (by rw [hthird, hnumber]; omega)
  by_cases hp0 : e₀ = '='.toUInt8
  · simp [hp0, decodeGroup, bytesOf]
  by_cases hp1 : e₁ = '='.toUInt8
  · have hzero : i₁ = 0 := by
      rw [hp1] at h₁
      exact (Option.some.inj h₁).symm
    have hshift : i₀ <<< 2 = firstByte i₀ i₁ := by rw [hzero, firstByte, UInt8.zero_and, UInt8.zero_shiftRight, UInt8.or_zero]
    rw [hp1] at hf
    simp [hp0, hp1, decodeGroup, bytesOf, numberBytes, hshift, hf]
  by_cases hp2 : e₂ = '='.toUInt8
  · simp [hp0, hp1, hp2, decodeGroup, bytesOf, numberBytes, hf]
  by_cases hp3 : e₃ = '='.toUInt8
  · simp [hp0, hp1, hp2, hp3, decodeGroup, bytesOf, numberBytes, hf, hs]
  · simp [hp0, hp1, hp2, hp3, decodeGroup, bytesOf, numberBytes, hf, hs, ht]

/-- A character of the first group that is foreign to the alphabet. -/
theorem decodeGroups_foreign {e₀ e₁ e₂ e₃ : UInt8} {text : Bytes} (h : ∃ ch ∈ [e₀, e₁, e₂, e₃], ¬IsEncoded ch) :
    decodeGroups (e₀ :: e₁ :: e₂ :: e₃ :: text) = .error [] := by
  obtain ⟨ch, hmem, hch⟩ := h
  have hnone : indexOf ch = none := by rwa [← Option.not_isSome_iff_eq_none, indexOf_isSome_iff]
  rw [decodeGroups]
  split
  · rename_i h₀ h₁ h₂ h₃
    simp only [List.mem_cons, List.not_mem_nil, or_false] at hmem
    rcases hmem with rfl | rfl | rfl | rfl <;> simp_all
  · rfl

/-- The first group of a text when all its characters have an index. -/
theorem decodeGroups_cons {e₀ e₁ e₂ e₃ : UInt8} {text : Bytes} (h : ∀ ch ∈ [e₀, e₁, e₂, e₃], IsEncoded ch) :
    decodeGroups (e₀ :: e₁ :: e₂ :: e₃ :: text) =
      if '='.toUInt8 ∈ [e₀, e₁, e₂, e₃] then .ok (meaning [e₀, e₁, e₂, e₃])
      else ((decodeGroups text).map (meaning [e₀, e₁, e₂, e₃] ++ ·)).mapError (meaning [e₀, e₁, e₂, e₃] ++ ·) := by
  have hindex : ∀ ch ∈ [e₀, e₁, e₂, e₃], ∃ i, indexOf ch = some i := fun ch hch =>
    Option.isSome_iff_exists.1 (indexOf_isSome_iff.2 (h ch hch))
  obtain ⟨i₀, h₀⟩ := hindex e₀ (by simp)
  obtain ⟨i₁, h₁⟩ := hindex e₁ (by simp)
  obtain ⟨i₂, h₂⟩ := hindex e₂ (by simp)
  obtain ⟨i₃, h₃⟩ := hindex e₃ (by simp)
  have hgroup := decodeGroup_eq h₀ h₁ h₂ h₃
  have hiff : [e₀, e₁, e₂, e₃].idxOf '='.toUInt8 < 4 ↔ '='.toUInt8 ∈ [e₀, e₁, e₂, e₃] := List.idxOf_lt_length_iff
  rw [decodeGroups]
  simp only [h₀, h₁, h₂, h₃, hgroup, hiff, meaning, List.append_nil]

/-- What is read of a text in groups of four characters. -/
theorem decodeGroups_eq {text : Bytes} :
    ((∀ ch ∈ readText text, IsEncoded ch) → decodeGroups text = .ok (meaning (readText text))) ∧
      ((∃ ch ∈ readText text, ¬IsEncoded ch) → ∃ written, decodeGroups text = .error written) := by
  induction text using readText.induct with
  | case1 e₀ e₁ e₂ e₃ text ih =>
      by_cases hgroup : ∀ ch ∈ [e₀, e₁, e₂, e₃], IsEncoded ch
      swap
      · refine ⟨fun hall => absurd (fun ch hch => hall ch ?_) hgroup, fun _ => ⟨[], decodeGroups_foreign ?_⟩⟩
        · rw [readText]
          exact List.mem_append_left _ hch
        · push Not at hgroup
          exact hgroup
      rw [decodeGroups_cons hgroup, readText]
      by_cases hpadding : '='.toUInt8 ∈ [e₀, e₁, e₂, e₃]
      · rw [if_pos hpadding, if_pos hpadding, List.append_nil]
        exact ⟨fun _ => rfl, fun ⟨ch, hch, hforeign⟩ => absurd (hgroup ch hch) hforeign⟩
      rw [if_neg hpadding, if_neg hpadding]
      obtain ⟨hok, herror⟩ := ih
      constructor
      · intro hall
        rw [hok fun ch hch => hall ch (List.mem_append_right _ hch)]
        simp [meaning, Except.map, Except.mapError]
      · rintro ⟨ch, hch, hforeign⟩
        obtain ⟨written, hwritten⟩ := herror
          ⟨ch, (List.mem_append.1 hch).resolve_left fun hfirst => hforeign (hgroup ch hfirst), hforeign⟩
        exact ⟨meaning [e₀, e₁, e₂, e₃] ++ written, by rw [hwritten]; rfl⟩
  | case2 text hshort =>
      have hread : readText text = [] := by
        rw [readText]
        exact hshort
      have hgroups : decodeGroups text = .ok [] := by
        rw [decodeGroups]
        exact hshort
      rw [hread, hgroups]
      exact ⟨fun _ => rfl, nofun⟩

/-! ## Decoding -/

/-- A text is the encoding of bytes and they are appended, or it is no encoding and the call throws and changes nothing. -/
def DecodesExactly (increaseSize : Nat → Bytes) (text output : Bytes) : Prop :=
  (∀ b, text = encode b → decode increaseSize text output = .returned (output ++ b)) ∧
    ((∀ b, text ≠ encode b) → decode increaseSize text output = .thrown output)

/-- A call throws for a text of a wrong length, which leaves the output as it is, and for a foreign character in front of the
end of the group with the first padding character. Otherwise it appends the bytes of the groups up to there, which are those
that were encoded when the text is an encoding. -/
theorem decode_spec (increaseSize : Nat → Bytes) (text output : Bytes) :
    (text.length % 4 ≠ 0 → decode increaseSize text output = .thrown output) ∧
    (text.length % 4 = 0 → (∃ ch ∈ readText text, ¬IsEncoded ch) →
      ∃ left, decode increaseSize text output = .thrown left) ∧
    (text.length % 4 = 0 → (∀ ch ∈ readText text, IsEncoded ch) →
      decode increaseSize text output = .returned (output ++ meaning (readText text))) ∧
    ∀ b, decode increaseSize (encode b) output = .returned (output ++ b) := by
  obtain ⟨hok, herror⟩ := @decodeGroups_eq text
  refine ⟨fun hlength => ?_, fun hlength hforeign => ?_, fun hlength hall => ?_, fun b => decode_encode increaseSize b output⟩
  · have hne : text ≠ [] := by
      rintro rfl
      exact hlength rfl
    rw [decode, if_neg hne, if_pos hlength]
  · have hne : text ≠ [] := by
      rintro rfl
      obtain ⟨ch, hch, -⟩ := hforeign
      cases hch
    obtain ⟨written, hwritten⟩ := herror hforeign
    rw [decode, if_neg hne, if_neg (not_not_intro hlength), hwritten]
    exact ⟨_, rfl⟩
  · rw [decode]
    split
    · rename_i hnil
      subst hnil
      simp [readText, meaning]
    · rw [if_neg (not_not_intro hlength), hok hall]

/-- `Zm9v` in front of a group with a padding character in its middle, and a foreign character. -/
theorem decode_spec_examples :
    decode (fun n => List.replicate n 0) (ascii "Zm9vZg=X####") (ascii ">") = .returned (ascii ">foof") ∧
      ∃ left, decode (fun n => List.replicate n 0) (ascii "Zm9vZ-==") (ascii ">") = .thrown left := by
  obtain ⟨-, -, hreturned, -⟩ := decode_spec (fun n => List.replicate n 0) (ascii "Zm9vZg=X####") (ascii ">")
  obtain ⟨-, hthrown, -⟩ := decode_spec (fun n => List.replicate n 0) (ascii "Zm9vZ-==") (ascii ">")
  have hencoded : ∀ ch ∈ readText (ascii "Zm9vZg=X####"), (indexOf ch).isSome = true := by decide +kernel
  have hforeign : ∃ ch ∈ readText (ascii "Zm9vZ-=="), ¬(indexOf ch).isSome = true := by decide +kernel
  simp only [indexOf_isSome_iff] at hencoded hforeign
  exact ⟨hreturned rfl hencoded, hthrown rfl hforeign⟩

/-- `Zg=X` is not what `f` is encoded to, and it is decoded to `f`. -/
theorem decode_not_exact : ¬∀ increaseSize text output, DecodesExactly increaseSize text output := by
  intro h
  have hdecode : decode (fun n => List.replicate n 0) (ascii "Zg=X") [] = .returned (ascii "f") := rfl
  have hno : ∀ b, ascii "Zg=X" ≠ encode b := by
    intro b hb
    have hb' := decode_encode (fun n => List.replicate n 0) b []
    rw [← hb, hdecode] at hb'
    obtain rfl : ascii "f" = b := Outcome.returned.inj hb'
    exact absurd hb (by decide)
  have hthrown := (h (fun n => List.replicate n 0) (ascii "Zg=X") []).2 hno
  rw [hdecode] at hthrown
  cases hthrown

end Rad.Base64
