import Mathlib.Data.Vector.Basic
import Rad.Lib.Blocks
import Rad.Text.Ascii

/-!
# Padding and the modes that pad (include/rad/crypto/padding.h, include/rad/crypto/modes/cbc.h, ecb.h)

A buffer is the list of its bytes. A container that grows is filled with zeros. An error code is `none` when it is not
set.
-/

namespace Rad.Crypto

/-- `padding_error_code`, but for `no_error`. -/
inductive PaddingErrorCode where
  | notAligned
  | smallPaddingBuffer
  | invalidPadding
  deriving DecidableEq, Repr

namespace Pkcs7

/-- `PKCS7::get_required_padding_size`. -/
def getRequiredPaddingSize (blockLength size : Nat) : Nat :=
  if size < blockLength then blockLength - size
  else if size = blockLength then blockLength
  else
    let rem := size % blockLength
    if rem = 0 then blockLength else blockLength - rem

/-- `PKCS7::add_padding`: the last block, and how many bytes of it are padding. -/
def addPadding (blockLength : Nat) (inputOutput : Bytes) : Bytes × Nat :=
  let paddingSize := getRequiredPaddingSize blockLength inputOutput.length
  let dataInLastBlock := blockLength - paddingSize
  (inputOutput.drop (inputOutput.length - dataInLastBlock) ++ List.replicate paddingSize (UInt8.ofNat paddingSize),
    paddingSize)

/-- `PKCS7::put_padding`. The value is the size in 8 bits, and so is the number of bytes that are filled. -/
def putPadding (inputOutput : Bytes) (dataSize : Nat) : Bytes :=
  let paddingValue := UInt8.ofNat (inputOutput.length - dataSize)
  inputOutput.take dataSize ++ List.replicate paddingValue.toNat paddingValue ++
    inputOutput.drop (dataSize + paddingValue.toNat)

/-- `PKCS7::get_existing_padding_size`. -/
def getExistingPaddingSize (blockLength : Nat) (input : Bytes) (ec : Option PaddingErrorCode) :
    Nat × Option PaddingErrorCode :=
  let paddingValue := input.getLastD 0
  if paddingValue.toNat > blockLength then (0, some .invalidPadding) else (paddingValue.toNat, ec)

end Pkcs7

/-- A cipher on blocks of `blockLength` bytes. -/
structure BlockCipher (blockLength : Nat) where
  encrypt : Vector UInt8 blockLength → Vector UInt8 blockLength
  decrypt : Vector UInt8 blockLength → Vector UInt8 blockLength
  blockLength_pos : 0 < blockLength
  decrypt_encrypt : ∀ block, decrypt (encrypt block) = block

/-- The first block of a text, with zeros behind a text that is shorter. -/
def blockOf (n : Nat) (bytes : Bytes) : Vector UInt8 n := Vector.ofFn fun i => bytes.getD i 0

def xorBlocks {n : Nat} (a b : Vector UInt8 n) : Vector UInt8 n := Vector.zipWith (· ^^^ ·) a b

/-! ## What the modes share

`σ` is what a mode keeps between two blocks.
-/

/-- What `encrypt` leaves in its two buffers, what it returns and its error code. -/
structure Encrypted where
  inputOutput : Bytes
  paddingBuffer : Bytes
  size : Nat
  ec : Option PaddingErrorCode

structure Decrypted where
  inputOutput : Bytes
  size : Nat
  ec : Option PaddingErrorCode

section

variable {σ : Type} (n : Nat) (encryptBlock decryptBlock : σ → Bytes → Bytes × σ)

def encryptPadded (mode : σ) (ec : Option PaddingErrorCode) (inputOutput paddingBuffer : Bytes) : Encrypted × σ :=
  if inputOutput = [] then (⟨inputOutput, paddingBuffer, 0, ec⟩, mode)
  else
    let paddingSize := Pkcs7.getRequiredPaddingSize n inputOutput.length
    if paddingBuffer.length < paddingSize then (⟨inputOutput, paddingBuffer, 0, some .smallPaddingBuffer⟩, mode)
    else
      let alignedSize := inputOutput.length - inputOutput.length % n
      let (aligned, mode) := Lib.runBlocks n encryptBlock (alignedSize / n) mode (inputOutput.take alignedSize)
      let (lastBlock, _) := Pkcs7.addPadding n inputOutput
      let (lastBlock, mode) := encryptBlock mode lastBlock
      let inLast := inputOutput.length - alignedSize
      (⟨aligned ++ lastBlock.take inLast, lastBlock.drop inLast ++ paddingBuffer.drop (n - inLast), paddingSize, ec⟩, mode)

def encryptAppended (mode : σ) (plaintext ciphertext : Bytes) : Bytes × σ :=
  let paddingSize := Pkcs7.getRequiredPaddingSize n plaintext.length
  let output := Pkcs7.putPadding (plaintext ++ List.replicate paddingSize 0) plaintext.length
  let (output, mode) := Lib.runBlocks n encryptBlock (output.length / n) mode output
  (ciphertext ++ output, mode)

def decryptPadded (mode : σ) (ec : Option PaddingErrorCode) (inputOutput : Bytes) : Decrypted × σ :=
  if inputOutput = [] then (⟨inputOutput, 0, ec⟩, mode)
  else if inputOutput.length % n ≠ 0 then (⟨inputOutput, 0, some .notAligned⟩, mode)
  else
    let (inputOutput, mode) := Lib.runBlocks n decryptBlock (inputOutput.length / n) mode inputOutput
    let (existingPadding, ec) := Pkcs7.getExistingPaddingSize n inputOutput ec
    if ec.isSome then (⟨inputOutput, 0, ec⟩, mode) else (⟨inputOutput, inputOutput.length - existingPadding, ec⟩, mode)

end

/-! ## The modes -/

/-- `cbc_mode`. -/
structure CbcMode (n : Nat) where
  cipher : BlockCipher n
  iv : Vector UInt8 n

namespace CbcMode

variable {n : Nat}

def xorIvPlaintext (mode : CbcMode n) (plaintext : Vector UInt8 n) : Vector UInt8 n := xorBlocks plaintext mode.iv

def storeIv (mode : CbcMode n) (block : Vector UInt8 n) : CbcMode n := { mode with iv := block }

def encryptBlock (mode : CbcMode n) (block : Bytes) : Bytes × CbcMode n :=
  let block := mode.cipher.encrypt (mode.xorIvPlaintext (blockOf n block))
  (block.toList, mode.storeIv block)

def decryptBlock (mode : CbcMode n) (block : Bytes) : Bytes × CbcMode n :=
  let nextIv := blockOf n block
  let block := mode.xorIvPlaintext (mode.cipher.decrypt (blockOf n block))
  (block.toList, mode.storeIv nextIv)

/-- `encrypt` with a buffer for the padding. It clears the error code. -/
def encrypt (mode : CbcMode n) (_ec : Option PaddingErrorCode) (inputOutput paddingBuffer : Bytes) :
    Encrypted × CbcMode n :=
  encryptPadded n encryptBlock mode none inputOutput paddingBuffer

/-- `encrypt` into a container. -/
def encryptInto (mode : CbcMode n) (plaintext ciphertext : Bytes) : Bytes × CbcMode n :=
  if plaintext = [] then (ciphertext, mode) else encryptAppended n encryptBlock mode plaintext ciphertext

/-- It clears the error code. -/
def decrypt (mode : CbcMode n) (_ec : Option PaddingErrorCode) (inputOutput : Bytes) : Decrypted × CbcMode n :=
  decryptPadded n decryptBlock mode none inputOutput

end CbcMode

/-- `ecb_mode`. -/
structure EcbMode (n : Nat) where
  cipher : BlockCipher n

namespace EcbMode

variable {n : Nat}

def encryptBlock (mode : EcbMode n) (block : Bytes) : Bytes × EcbMode n :=
  ((mode.cipher.encrypt (blockOf n block)).toList, mode)

def decryptBlock (mode : EcbMode n) (block : Bytes) : Bytes × EcbMode n :=
  ((mode.cipher.decrypt (blockOf n block)).toList, mode)

/-- `encrypt` with a buffer for the padding. The error code stays what it was. -/
def encrypt (mode : EcbMode n) (ec : Option PaddingErrorCode) (inputOutput paddingBuffer : Bytes) :
    Encrypted × EcbMode n :=
  encryptPadded n encryptBlock mode ec inputOutput paddingBuffer

/-- `encrypt` into a container. -/
def encryptInto (mode : EcbMode n) (plaintext ciphertext : Bytes) : Bytes × EcbMode n :=
  encryptAppended n encryptBlock mode plaintext ciphertext

/-- The error code stays what it was. -/
def decrypt (mode : EcbMode n) (ec : Option PaddingErrorCode) (inputOutput : Bytes) : Decrypted × EcbMode n :=
  decryptPadded n decryptBlock mode ec inputOutput

end EcbMode

end Rad.Crypto
