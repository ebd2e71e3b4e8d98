import Rad.Lib.Blocks
import Mathlib.Data.BitVec
import Rad.Text.Ascii

/-!
# Blocks of 16 bytes (include/rad/crypto/aes.h, include/rad/crypto/detail/m128.h)

A block is the number that its bytes spell, the first byte highest. So the `beu32` words of a counter are its 32-bit parts,
and bit `i` of `check_bit` is the bit `i` from the top.
-/

namespace Rad.Crypto

open Lib

abbrev Block := BitVec 128

namespace Block

def length : Nat := 16

def byte (b : Block) (i : Nat) : UInt8 := UInt8.ofBitVec (b.extractLsb' (8 * (15 - i)) 8)

/-- The block of up to 16 bytes, with zeros behind them. -/
def ofBytes (bytes : Bytes) : Block :=
  (List.range length).foldl (fun b i => b <<< 8 ||| (bytes.getD i 0).toBitVec.setWidth 128) 0

def toBytes (b : Block) : Bytes := (List.range length).map b.byte

end Block

/-! ## Counters -/

/-- `u32parts`. -/
structure U32Parts where
  u3 : BitVec 32
  u2 : BitVec 32
  u1 : BitVec 32
  u0 : BitVec 32

namespace U32Parts

def ofBlock (b : Block) : U32Parts where
  u3 := b.extractLsb' 96 32
  u2 := b.extractLsb' 64 32
  u1 := b.extractLsb' 32 32
  u0 := b.extractLsb' 0 32

def toBlock (parts : U32Parts) : Block := parts.u3 ++ parts.u2 ++ parts.u1 ++ parts.u0

end U32Parts

def aesCtrInc (iv : Block) : Block :=
  let parts := U32Parts.ofBlock iv
  let parts := { parts with u0 := parts.u0 + 1 }
  if parts.u0 ≠ 0 then parts.toBlock
  else
    let parts := { parts with u1 := parts.u1 + 1 }
    if parts.u1 ≠ 0 then parts.toBlock
    else
      let parts := { parts with u2 := parts.u2 + 1 }
      if parts.u2 ≠ 0 then parts.toBlock
      else { parts with u3 := parts.u3 + 1 }.toBlock

theorem toNat_append_word {w : Nat} (hi : BitVec w) (lo : BitVec 32) :
    (hi ++ lo).toNat = hi.toNat * 2 ^ 32 + lo.toNat := by
  rw [BitVec.toNat_append, ← Nat.shiftLeft_add_eq_or_of_lt lo.isLt, Nat.shiftLeft_eq]

theorem U32Parts.toNat_toBlock (parts : U32Parts) : parts.toBlock.toNat =
    ((parts.u3.toNat * 2 ^ 32 + parts.u2.toNat) * 2 ^ 32 + parts.u1.toNat) * 2 ^ 32 + parts.u0.toNat := by
  rw [toBlock, toNat_append_word, toNat_append_word, toNat_append_word]

theorem U32Parts.toBlock_ofBlock (b : Block) : (ofBlock b).toBlock = b := by
  apply BitVec.eq_of_toNat_eq
  rw [toNat_toBlock]
  have hlt := b.isLt
  simp only [ofBlock, BitVec.extractLsb'_toNat, Nat.shiftRight_eq_div_pow]
  omega

/-- A word that is not zero behind an increment did not wrap. -/
theorem toNat_add_one_word (u : BitVec 32) :
    (u + 1 ≠ 0 → (u + 1).toNat = u.toNat + 1) ∧ (u + 1 = 0 → u.toNat = 2 ^ 32 - 1) := by
  have hlt := u.isLt
  have hadd : (u + 1).toNat = (u.toNat + 1) % 2 ^ 32 := BitVec.toNat_add u 1
  constructor
  · intro hne
    have hpos : (u + 1).toNat ≠ 0 := fun hzero => hne (BitVec.eq_of_toNat_eq hzero)
    omega
  · intro heq
    rw [heq] at hadd
    have hadd : 0 = (u.toNat + 1) % 2 ^ 32 := hadd
    omega

/-- The four words are counted up as one number. -/
theorem aesCtrInc_eq (iv : Block) : aesCtrInc iv = iv + 1 := by
  have hiv := U32Parts.toNat_toBlock (U32Parts.ofBlock iv)
  rw [U32Parts.toBlock_ofBlock] at hiv
  unfold aesCtrInc
  generalize U32Parts.ofBlock iv = parts at hiv ⊢
  have h0 := toNat_add_one_word parts.u0
  have h1 := toNat_add_one_word parts.u1
  have h2 := toNat_add_one_word parts.u2
  have h3 : (parts.u3 + 1).toNat = (parts.u3.toNat + 1) % 2 ^ 32 := BitVec.toNat_add parts.u3 1
  have hlt := parts.u3.isLt
  apply BitVec.eq_of_toNat_eq
  have hsum : (iv + 1).toNat = (iv.toNat + 1) % 2 ^ 128 := BitVec.toNat_add iv 1
  rw [hsum, hiv]
  clear hsum hiv
  dsimp only
  split
  · rename_i hne
    have hlt0 := (parts.u0 + 1).isLt
    have hlt1 := parts.u1.isLt
    have hlt2 := parts.u2.isLt
    rw [h0.1 hne] at hlt0
    rw [U32Parts.toNat_toBlock]
    dsimp only
    rw [h0.1 hne, Nat.mod_eq_of_lt (by omega)]
    omega
  · rename_i hzero
    rw [not_not] at hzero
    split
    · rename_i hne
      rw [U32Parts.toNat_toBlock]
      dsimp only
      rw [hzero, h0.2 hzero, h1.1 hne]
      have := parts.u2.isLt
      have := (parts.u1 + 1).isLt
      have := h1.1 hne
      show _ + 0 = _
      omega
    · rename_i hzero'
      rw [not_not] at hzero'
      split
      · rename_i hne
        rw [U32Parts.toNat_toBlock]
        dsimp only
        rw [hzero, hzero', h0.2 hzero, h1.2 hzero', h2.1 hne]
        have := (parts.u2 + 1).isLt
        have := h2.1 hne
        show (_ * _ + 0) * _ + 0 = _
        omega
      · rename_i hzero''
        rw [not_not] at hzero''
        rw [U32Parts.toNat_toBlock]
        dsimp only
        rw [hzero, hzero', hzero'', h0.2 hzero, h1.2 hzero', h2.2 hzero'', h3]
        show ((_ * _ + 0) * _ + 0) * _ + 0 = _
        omega

/-! ## `ctr_mode` (include/rad/crypto/modes/ctr.h)

The cipher is the function that `encrypt` computes on a block under the key. The aligned and the unaligned block loop do
the same; data are encrypted in place, here the output is the result. A read of the key stream outside of its block is
undefined: there is no result.
-/

/-- Subtraction of `std::size_t`. -/
def sizeSub (a b : Nat) : Nat := (a + 2 ^ 64 - b) % 2 ^ 64

structure CtrMode where
  iv : Block
  cipher : Block → Block
  lastBlockSize : Nat := 0

namespace CtrMode

/-- `ctr_mode(cipher, iv)`. -/
def ofIv (cipher : Block → Block) (iv : Block) : CtrMode := { iv, cipher }

def setIv (m : CtrMode) (nonce : Block) : CtrMode := { m with iv := nonce }

/-- `encrypt_aligned_blocks` and `encrypt_unaligned_blocks` of `n` blocks. -/
def encryptWholeBlocks (m : CtrMode) : Nat → Bytes → Bytes × CtrMode
  | 0, _ => ([], m)
  | n + 1, blocks =>
    let block := xorStream (m.cipher m.iv).byte 0 (blocks.take Block.length)
    let r := encryptWholeBlocks { m with iv := aesCtrInc m.iv } n (blocks.drop Block.length)
    (block ++ r.1, r.2)

/-- The rest of the key stream block of the call before: the output, the input that is left, the object. -/
def encryptLastBlock (m : CtrMode) (input : Bytes) : Option (Bytes × Bytes × CtrMode) :=
  if m.lastBlockSize = 0 then some ([], input, m)
  else if m.lastBlockSize > Block.length then none
  else
    let blockSize := min (sizeSub Block.length m.lastBlockSize) input.length
    let block := xorStream (m.cipher m.iv).byte m.lastBlockSize (input.take blockSize)
    let m := { m with lastBlockSize := sizeSub m.lastBlockSize blockSize }
    some (block, input.drop blockSize, if m.lastBlockSize = 0 then { m with iv := aesCtrInc m.iv } else m)

/-- The whole blocks and the last one, which may be incomplete. -/
def encryptNewBlocks (m : CtrMode) (input : Bytes) : Bytes × CtrMode :=
  let r := m.encryptWholeBlocks (input.length / Block.length) input
  if input.length % Block.length = 0 then r
  else
    let lastBlock := input.drop (input.length - input.length % Block.length)
    (r.1 ++ xorStream (r.2.cipher r.2.iv).byte 0 lastBlock, { r.2 with lastBlockSize := lastBlock.length })

def encryptBlocks (m : CtrMode) (input : Bytes) : Option (Bytes × CtrMode) :=
  if input.isEmpty then some ([], m)
  else
    match m.encryptLastBlock input with
    | none => none
    | some (block, rest, m) =>
      if rest.isEmpty then some (block, m)
      else
        let r := m.encryptNewBlocks rest
        some (block ++ r.1, r.2)

def encrypt (m : CtrMode) (input : Bytes) : Option (Bytes × CtrMode) := m.encryptBlocks input

def decrypt (m : CtrMode) (ciphertext : Bytes) : Option (Bytes × CtrMode) := m.encrypt ciphertext

end CtrMode

/-! ## `gcm_mode` (include/rad/crypto/modes/gcm.h, src/crypto/gcm.cpp)

The cipher is the function that `encrypt` computes on a block under the key. `ghash` is the portable one, which the fast
multiplication computes as well; aligned and unaligned data are treated alike.
-/

/-! ## `ghash` -/

def g256MulLoop (y : Block) : Nat → Nat → Block → Block → Block
  | 0, _, z, _ => z
  | fuel + 1, i, z, v =>
    let z := if y.getMsbD i then z ^^^ v else z
    let shifted := v >>> 1
    g256MulLoop y fuel (i + 1) z (if v.getMsbD 127 then shifted ^^^ (0xe1#128 <<< 120) else shifted)

def g256Mul (x y : Block) : Block := g256MulLoop y 128 0 0 x

/-- `ghash_blocks`: the whole blocks of the data and the last one, filled up with zeros. -/
def ghashBlocks (h : Block) (x : Block) (data : Bytes) : Block :=
  (data.toChunks Block.length).foldl (fun x block => g256Mul (x ^^^ Block.ofBytes block) h) x

/-- `merge_lengths`, of lengths in bits as `uint64_t`. -/
def mergeLengths (aLen cLen : Nat) : Block := (BitVec.ofNat 64 aLen ++ BitVec.ofNat 64 cLen : BitVec 128)

def ghashCalc (h : Block) (a c : Bytes) : Block :=
  let x := ghashBlocks h (ghashBlocks h 0 a) c
  g256Mul (x ^^^ mergeLengths (a.length * 8) (c.length * 8)) h

/-! ## The mode -/

structure GcmMode where
  h : Block
  ekY0 : Block
  cipher : Block → Block
  y0 : Block
  ivCounter : Block
  remainingIvEncrypted : Block
  remainingIvSize : Nat := 0

namespace GcmMode

/-- `incr`: the last word alone is counted up. -/
def incr (counter : Block) : Block :=
  let parts := U32Parts.ofBlock counter
  { parts with u0 := parts.u0 + 1 }.toBlock

def updateH (m : GcmMode) : GcmMode := { m with h := m.cipher 0 }

def updateEkY0 (m : GcmMode) : GcmMode := { m with ekY0 := m.cipher m.y0 }

def defaultIvLength : Nat := 12

/-- The first counter: an iv of 12 bytes with the word 1 behind it, or the hash of any other iv. -/
def firstCounter (h : Block) (iv : Bytes) : Block :=
  if iv.length = defaultIvLength then Block.ofBytes (iv ++ [0, 0, 0, 1]) else ghashCalc h [] iv

def setIv (m : GcmMode) (iv : Bytes) : GcmMode :=
  let y0 := firstCounter m.h iv
  { m with y0, ivCounter := y0 }.updateEkY0

def setKeyIv (m : GcmMode) (cipher : Block → Block) (iv : Bytes) : GcmMode :=
  ({ m with cipher }.updateH).setIv iv

/-- `gcm_mode(key, iv)`. The saved key stream block is not initialised. -/
def ofKeyIv (cipher : Block → Block) (iv : Bytes) (uninitialised : Block) : GcmMode :=
  (updateH { h := 0, ekY0 := 0, cipher, y0 := 0, ivCounter := 0, remainingIvEncrypted := uninitialised }).setIv iv

/-- The output and the object. -/
def encryptWithRemainingIvCounter (m : GcmMode) (input : Bytes) : Bytes × GcmMode :=
  if m.remainingIvSize = 0 then ([], m)
  else
    let consumeSize := min m.remainingIvSize input.length
    (xorStream m.remainingIvEncrypted.byte (Block.length - m.remainingIvSize) (input.take consumeSize),
      { m with remainingIvSize := m.remainingIvSize - consumeSize })

/-- `encrypt_aligned` and `encrypt_unaligned` of `n` blocks. -/
def encryptWholeBlocks (m : GcmMode) : Nat → Bytes → Bytes × GcmMode
  | 0, _ => ([], m)
  | n + 1, blocks =>
    let m := { m with ivCounter := incr m.ivCounter }
    let block := xorStream (m.cipher m.ivCounter).byte 0 (blocks.take Block.length)
    let r := encryptWholeBlocks m n (blocks.drop Block.length)
    (block ++ r.1, r.2)

/-- The blocks behind what was left of the last one. -/
def encryptNewBlocks (m : GcmMode) (input : Bytes) : Bytes × GcmMode :=
  let r := m.encryptWholeBlocks (input.length / Block.length) input
  let u := input.length % Block.length
  if u = 0 then r
  else
    let m := { r.2 with ivCounter := incr r.2.ivCounter }
    let m := { m with remainingIvEncrypted := m.cipher m.ivCounter }
    (r.1 ++ xorStream m.remainingIvEncrypted.byte 0 (input.drop (input.length - u)),
      { m with remainingIvSize := Block.length - u })

def encryptBlocks (m : GcmMode) (input : Bytes) : Bytes × GcmMode :=
  let r := m.encryptWithRemainingIvCounter input
  let rest := input.drop r.1.length
  if rest.isEmpty then r
  else
    let r' := r.2.encryptNewBlocks rest
    (r.1 ++ r'.1, r'.2)

/-- The tag of 16 bytes. -/
def tag (m : GcmMode) (additionalData ciphertext : Bytes) : Bytes :=
  (ghashCalc m.h additionalData ciphertext ^^^ m.ekY0).toBytes

/-- `encrypt`: the ciphertext, what is stored in a tag buffer of `tagSize` bytes, the object. -/
def encrypt (m : GcmMode) (input additionalData : Bytes) (tagSize : Nat) : Bytes × Bytes × GcmMode :=
  let r := m.encryptBlocks input
  (r.1, (r.2.tag additionalData r.1).take (min tagSize Block.length), r.2)

/-- `decrypt`: no plaintext where the tags differ. -/
def decrypt (m : GcmMode) (input aadData tag : Bytes) : Option Bytes × GcmMode :=
  let size := min tag.length Block.length
  if (m.tag aadData input).take size ≠ tag.take size then (none, m)
  else
    let r := m.encryptBlocks input
    (some r.1, r.2)

def encryptNoAuth (m : GcmMode) (input : Bytes) : Bytes × GcmMode := m.encryptBlocks input

def decryptNoAuth (m : GcmMode) (input : Bytes) : Bytes × GcmMode :=
  let u := input.length % Block.length
  let r := m.encryptBlocks input
  if u = 0 then r
  else
    let m := { r.2 with ivCounter := incr r.2.ivCounter }
    let rest := r.1.length - u
    (r.1.take rest ++ xorStream (m.cipher m.ivCounter).byte 0 (r.1.drop rest), m)

end GcmMode

end Rad.Crypto
