import Rad.Text.Ascii
import Mathlib.Data.BitVec

/-!
# The software cipher of AES (src/crypto/aes.cpp, include/rad/crypto/aes.h)

A word of a key and a column of a state are four bytes, and as a number of 32 bits their first byte is the lowest. A state
is four columns, and so is the key of a round.
-/

namespace Rad.Crypto

def sbox : List UInt8 := [
  0x63, 0x7c, 0x77, 0x7b, 0xf2, 0x6b, 0x6f, 0xc5, 0x30, 0x01, 0x67, 0x2b, 0xfe, 0xd7, 0xab, 0x76,
  0xca, 0x82, 0xc9, 0x7d, 0xfa, 0x59, 0x47, 0xf0, 0xad, 0xd4, 0xa2, 0xaf, 0x9c, 0xa4, 0x72, 0xc0,
  0xb7, 0xfd, 0x93, 0x26, 0x36, 0x3f, 0xf7, 0xcc, 0x34, 0xa5, 0xe5, 0xf1, 0x71, 0xd8, 0x31, 0x15,
  0x04, 0xc7, 0x23, 0xc3, 0x18, 0x96, 0x05, 0x9a, 0x07, 0x12, 0x80, 0xe2, 0xeb, 0x27, 0xb2, 0x75,
  0x09, 0x83, 0x2c, 0x1a, 0x1b, 0x6e, 0x5a, 0xa0, 0x52, 0x3b, 0xd6, 0xb3, 0x29, 0xe3, 0x2f, 0x84,
  0x53, 0xd1, 0x00, 0xed, 0x20, 0xfc, 0xb1, 0x5b, 0x6a, 0xcb, 0xbe, 0x39, 0x4a, 0x4c, 0x58, 0xcf,
  0xd0, 0xef, 0xaa, 0xfb, 0x43, 0x4d, 0x33, 0x85, 0x45, 0xf9, 0x02, 0x7f, 0x50, 0x3c, 0x9f, 0xa8,
  0x51, 0xa3, 0x40, 0x8f, 0x92, 0x9d, 0x38, 0xf5, 0xbc, 0xb6, 0xda, 0x21, 0x10, 0xff, 0xf3, 0xd2,
  0xcd, 0x0c, 0x13, 0xec, 0x5f, 0x97, 0x44, 0x17, 0xc4, 0xa7, 0x7e, 0x3d, 0x64, 0x5d, 0x19, 0x73,
  0x60, 0x81, 0x4f, 0xdc, 0x22, 0x2a, 0x90, 0x88, 0x46, 0xee, 0xb8, 0x14, 0xde, 0x5e, 0x0b, 0xdb,
  0xe0, 0x32, 0x3a, 0x0a, 0x49, 0x06, 0x24, 0x5c, 0xc2, 0xd3, 0xac, 0x62, 0x91, 0x95, 0xe4, 0x79,
  0xe7, 0xc8, 0x37, 0x6d, 0x8d, 0xd5, 0x4e, 0xa9, 0x6c, 0x56, 0xf4, 0xea, 0x65, 0x7a, 0xae, 0x08,
  0xba, 0x78, 0x25, 0x2e, 0x1c, 0xa6, 0xb4, 0xc6, 0xe8, 0xdd, 0x74, 0x1f, 0x4b, 0xbd, 0x8b, 0x8a,
  0x70, 0x3e, 0xb5, 0x66, 0x48, 0x03, 0xf6, 0x0e, 0x61, 0x35, 0x57, 0xb9, 0x86, 0xc1, 0x1d, 0x9e,
  0xe1, 0xf8, 0x98, 0x11, 0x69, 0xd9, 0x8e, 0x94, 0x9b, 0x1e, 0x87, 0xe9, 0xce, 0x55, 0x28, 0xdf,
  0x8c, 0xa1, 0x89, 0x0d, 0xbf, 0xe6, 0x42, 0x68, 0x41, 0x99, 0x2d, 0x0f, 0xb0, 0x54, 0xbb, 0x16]

def rsbox : List UInt8 := [
  0x52, 0x09, 0x6a, 0xd5, 0x30, 0x36, 0xa5, 0x38, 0xbf, 0x40, 0xa3, 0x9e, 0x81, 0xf3, 0xd7, 0xfb,
  0x7c, 0xe3, 0x39, 0x82, 0x9b, 0x2f, 0xff, 0x87, 0x34, 0x8e, 0x43, 0x44, 0xc4, 0xde, 0xe9, 0xcb,
  0x54, 0x7b, 0x94, 0x32, 0xa6, 0xc2, 0x23, 0x3d, 0xee, 0x4c, 0x95, 0x0b, 0x42, 0xfa, 0xc3, 0x4e,
  0x08, 0x2e, 0xa1, 0x66, 0x28, 0xd9, 0x24, 0xb2, 0x76, 0x5b, 0xa2, 0x49, 0x6d, 0x8b, 0xd1, 0x25,
  0x72, 0xf8, 0xf6, 0x64, 0x86, 0x68, 0x98, 0x16, 0xd4, 0xa4, 0x5c, 0xcc, 0x5d, 0x65, 0xb6, 0x92,
  0x6c, 0x70, 0x48, 0x50, 0xfd, 0xed, 0xb9, 0xda, 0x5e, 0x15, 0x46, 0x57, 0xa7, 0x8d, 0x9d, 0x84,
  0x90, 0xd8, 0xab, 0x00, 0x8c, 0xbc, 0xd3, 0x0a, 0xf7, 0xe4, 0x58, 0x05, 0xb8, 0xb3, 0x45, 0x06,
  0xd0, 0x2c, 0x1e, 0x8f, 0xca, 0x3f, 0x0f, 0x02, 0xc1, 0xaf, 0xbd, 0x03, 0x01, 0x13, 0x8a, 0x6b,
  0x3a, 0x91, 0x11, 0x41, 0x4f, 0x67, 0xdc, 0xea, 0x97, 0xf2, 0xcf, 0xce, 0xf0, 0xb4, 0xe6, 0x73,
  0x96, 0xac, 0x74, 0x22, 0xe7, 0xad, 0x35, 0x85, 0xe2, 0xf9, 0x37, 0xe8, 0x1c, 0x75, 0xdf, 0x6e,
  0x47, 0xf1, 0x1a, 0x71, 0x1d, 0x29, 0xc5, 0x89, 0x6f, 0xb7, 0x62, 0x0e, 0xaa, 0x18, 0xbe, 0x1b,
  0xfc, 0x56, 0x3e, 0x4b, 0xc6, 0xd2, 0x79, 0x20, 0x9a, 0xdb, 0xc0, 0xfe, 0x78, 0xcd, 0x5a, 0xf4,
  0x1f, 0xdd, 0xa8, 0x33, 0x88, 0x07, 0xc7, 0x31, 0xb1, 0x12, 0x10, 0x59, 0x27, 0x80, 0xec, 0x5f,
  0x60, 0x51, 0x7f, 0xa9, 0x19, 0xb5, 0x4a, 0x0d, 0x2d, 0xe5, 0x7a, 0x9f, 0x93, 0xc9, 0x9c, 0xef,
  0xa0, 0xe0, 0x3b, 0x4d, 0xae, 0x2a, 0xf5, 0xb0, 0xc8, 0xeb, 0xbb, 0x3c, 0x83, 0x53, 0x99, 0x61,
  0x17, 0x2b, 0x04, 0x7e, 0xba, 0x77, 0xd6, 0x26, 0xe1, 0x69, 0x14, 0x63, 0x55, 0x21, 0x0c, 0x7d]

def sboxIth (i : UInt8) : UInt8 := sbox.getD i.toNat 0

def rsboxIth (i : UInt8) : UInt8 := rsbox.getD i.toNat 0

/-- `aes_key_word_type` and `aes_state_column_type`. -/
@[ext] structure AesColumn where
  b0 : UInt8
  b1 : UInt8
  b2 : UInt8
  b3 : UInt8
  deriving DecidableEq, Repr

namespace AesColumn

def u32 (w : AesColumn) : BitVec 32 := w.b3.toBitVec ++ w.b2.toBitVec ++ w.b1.toBitVec ++ w.b0.toBitVec

def ofU32 (n : BitVec 32) : AesColumn where
  b0 := .ofBitVec (n.extractLsb' 0 8)
  b1 := .ofBitVec (n.extractLsb' 8 8)
  b2 := .ofBitVec (n.extractLsb' 16 8)
  b3 := .ofBitVec (n.extractLsb' 24 8)

def map (f : UInt8 → UInt8) (w : AesColumn) : AesColumn := ⟨f w.b0, f w.b1, f w.b2, f w.b3⟩

def xor (w w' : AesColumn) : AesColumn := ⟨w.b0 ^^^ w'.b0, w.b1 ^^^ w'.b1, w.b2 ^^^ w'.b2, w.b3 ^^^ w'.b3⟩

end AesColumn

/-! ## Expansion of keys -/

inductive AesConstants where
  | aes128
  | aes192
  | aes256
  deriving DecidableEq, Repr

namespace AesConstants

def keyWords : AesConstants → Nat
  | aes128 => 4
  | aes192 => 6
  | aes256 => 8

def keyRounds : AesConstants → Nat
  | aes128 => 11
  | aes192 => 13
  | aes256 => 15

def cipherRounds : AesConstants → Nat
  | aes128 => 10
  | aes192 => 12
  | aes256 => 14

end AesConstants

def rotU32 (n : BitVec 32) : BitVec 32 := n >>> 8 ||| (n &&& 0xff) <<< 24

def rotWord (w : AesColumn) : AesColumn := .ofU32 (rotU32 w.u32)

def subWord (w : AesColumn) : AesColumn := w.map sboxIth

def xorWord (w w' : AesColumn) : AesColumn := .ofU32 (w.u32 ^^^ w'.u32)

def rconValues : List (BitVec 32) := [0x8d, 0x01, 0x02, 0x04, 0x08, 0x10, 0x20, 0x40, 0x80, 0x1b, 0x36]

/-- `do_aes_expand_key`: the words of the key, and behind them one word for each turn of the loop. -/
def doAesExpandKey (consts : AesConstants) (key : List AesColumn) : List AesColumn :=
  let n := consts.keyWords
  (List.range' n (4 * consts.keyRounds - n)).foldl (fun roundKey i =>
    let last := roundKey.getD (i - 1) ⟨0, 0, 0, 0⟩
    let last :=
      if i % n = 0 then xorWord (subWord (rotWord last)) (.ofU32 (rconValues.getD (i / n) 0))
      else if n > 6 ∧ i % n = 4 then subWord last
      else last
    roundKey ++ [xorWord (roundKey.getD (i - n) ⟨0, 0, 0, 0⟩) last]) key

/-! ## States -/

/-- `aes_state_type`. -/
structure AesState where
  c0 : AesColumn
  c1 : AesColumn
  c2 : AesColumn
  c3 : AesColumn
  deriving DecidableEq, Repr

/-- The words of an expanded key as `key_matrices`. -/
def keyMatrix (words : List AesColumn) (i : Nat) : AesState where
  c0 := words.getD (4 * i) ⟨0, 0, 0, 0⟩
  c1 := words.getD (4 * i + 1) ⟨0, 0, 0, 0⟩
  c2 := words.getD (4 * i + 2) ⟨0, 0, 0, 0⟩
  c3 := words.getD (4 * i + 3) ⟨0, 0, 0, 0⟩

namespace AesState

/-- The bytes of `matrix`. -/
def matrix (state : AesState) (i : Fin 16) : UInt8 :=
  let column := match i.val / 4 with
    | 0 => state.c0
    | 1 => state.c1
    | 2 => state.c2
    | _ => state.c3
  match i.val % 4 with
  | 0 => column.b0
  | 1 => column.b1
  | 2 => column.b2
  | _ => column.b3

def mapColumns (f : AesColumn → AesColumn) (state : AesState) : AesState :=
  ⟨f state.c0, f state.c1, f state.c2, f state.c3⟩

end AesState

def addRoundKey (state key : AesState) : AesState :=
  ⟨state.c0.xor key.c0, state.c1.xor key.c1, state.c2.xor key.c2, state.c3.xor key.c3⟩

def subBytes (state : AesState) : AesState := state.mapColumns (·.map sboxIth)

def invSubBytes (state : AesState) : AesState := state.mapColumns (·.map rsboxIth)

def makeU32FromParts (b0 b1 b2 b3 : BitVec 32) : BitVec 32 :=
  (b0 &&& (0xff#32 <<< (8 * 0))) ||| (b1 &&& (0xff#32 <<< (8 * 1))) ||| (b2 &&& (0xff#32 <<< (8 * 2))) |||
    (b3 &&& (0xff#32 <<< (8 * 3)))

def shiftRowsU32s (state : AesState) : AesState where
  c0 := .ofU32 (makeU32FromParts state.c0.u32 state.c1.u32 state.c2.u32 state.c3.u32)
  c1 := .ofU32 (makeU32FromParts state.c1.u32 state.c2.u32 state.c3.u32 state.c0.u32)
  c2 := .ofU32 (makeU32FromParts state.c2.u32 state.c3.u32 state.c0.u32 state.c1.u32)
  c3 := .ofU32 (makeU32FromParts state.c3.u32 state.c0.u32 state.c1.u32 state.c2.u32)

def shiftRows (state : AesState) : AesState := shiftRowsU32s state

def invShiftRows (state : AesState) : AesState :=
  let matrix := state.matrix
  ⟨⟨matrix 0, matrix 13, matrix 10, matrix 7⟩, ⟨matrix 4, matrix 1, matrix 14, matrix 11⟩,
    ⟨matrix 8, matrix 5, matrix 2, matrix 15⟩, ⟨matrix 12, matrix 9, matrix 6, matrix 3⟩⟩

def xtime (x : UInt8) : UInt8 := (x <<< 1) ^^^ ((x >>> 7 &&& 1) * 0x1b)

def gmul8 (x y : UInt8) : UInt8 :=
  let one : UInt8 := 1
  ((y &&& one) * x) ^^^ ((y >>> 1 &&& one) * xtime x) ^^^ ((y >>> 2 &&& one) * xtime (xtime x)) ^^^
    ((y >>> 3 &&& one) * xtime (xtime (xtime x))) ^^^ ((y >>> 4 &&& one) * xtime (xtime (xtime (xtime x))))

/-- The shift of the signed byte repeats its high bit. -/
def gmul8By2 (a : UInt8) : UInt8 :=
  let h := UInt8.ofBitVec (a.toBitVec.sshiftRight 7)
  let b := a <<< 1
  b ^^^ (0x1b &&& h)

def mixOneCol (a : AesColumn) : AesColumn :=
  let b := a.map gmul8By2
  ⟨b.b0 ^^^ a.b3 ^^^ a.b2 ^^^ b.b1 ^^^ a.b1, b.b1 ^^^ a.b0 ^^^ a.b3 ^^^ b.b2 ^^^ a.b2,
    b.b2 ^^^ a.b1 ^^^ a.b0 ^^^ b.b3 ^^^ a.b3, b.b3 ^^^ a.b2 ^^^ a.b1 ^^^ b.b0 ^^^ a.b0⟩

def mixColumns (state : AesState) : AesState := state.mapColumns mixOneCol

def invMixOneColumn (d : AesColumn) : AesColumn :=
  ⟨gmul8 d.b0 14 ^^^ gmul8 d.b1 11 ^^^ gmul8 d.b2 13 ^^^ gmul8 d.b3 9,
    gmul8 d.b0 9 ^^^ gmul8 d.b1 14 ^^^ gmul8 d.b2 11 ^^^ gmul8 d.b3 13,
    gmul8 d.b0 13 ^^^ gmul8 d.b1 9 ^^^ gmul8 d.b2 14 ^^^ gmul8 d.b3 11,
    gmul8 d.b0 11 ^^^ gmul8 d.b1 13 ^^^ gmul8 d.b2 9 ^^^ gmul8 d.b3 14⟩

def invMixColumns (state : AesState) : AesState := state.mapColumns invMixOneColumn

/-! ## The cipher -/

section

variable (consts : AesConstants) (keyMatrices : Nat → AesState)

def doCipher (state : AesState) : AesState :=
  let state := addRoundKey state (keyMatrices 0)
  let state := (List.range' 1 (consts.cipherRounds - 1)).foldl (fun state i =>
    addRoundKey (mixColumns (shiftRows (subBytes state))) (keyMatrices i)) state
  addRoundKey (shiftRows (subBytes state)) (keyMatrices consts.cipherRounds)

def invCipher (state : AesState) : AesState :=
  let state := addRoundKey state (keyMatrices consts.cipherRounds)
  let state := (List.range' 1 (consts.cipherRounds - 1)).reverse.foldl (fun state i =>
    invMixColumns (addRoundKey (invSubBytes (invShiftRows state)) (keyMatrices i))) state
  addRoundKey (invSubBytes (invShiftRows state)) (keyMatrices 0)

end

/-- `aes_expand_key`, for a key of as many words as its kind has. -/
def aesExpandKey (consts : AesConstants) (key : Vector AesColumn consts.keyWords) : List AesColumn :=
  doAesExpandKey consts key.toList

def aesEncrypt (consts : AesConstants) (roundKeys : List AesColumn) (state : AesState) : AesState :=
  doCipher consts (keyMatrix roundKeys) state

def aesDecrypt (consts : AesConstants) (roundKeys : List AesColumn) (state : AesState) : AesState :=
  invCipher consts (keyMatrix roundKeys) state

end Rad.Crypto
