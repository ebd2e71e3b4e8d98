import Rad.Text.Ascii
import Rad.Lib.BitCode

/-!
# Huffman coding of HPACK strings (src/net/http2/hpack.cpp)

The encoder writes into memory that starts at the output pointer, the decoder reads through `bits_reader_t`.
-/

namespace Rad.Hpack

/-- The `std::errc` values that the decoder reports. -/
inductive Errc where
  | noBufferSpace
  | valueTooLarge
  | invalidArgument
  deriving DecidableEq, Repr

/-- `huffman_entry_t`. -/
structure HuffmanEntry where
  symbol : UInt8
  len : Nat
  code : Nat
  deriving DecidableEq

def http2HuffmanTable : List HuffmanEntry := [
    ⟨0, 13, 0x1ff8⟩, ⟨1, 23, 0x7fffd8⟩, ⟨2, 28, 0xfffffe2⟩, ⟨3, 28, 0xfffffe3⟩, ⟨4, 28, 0xfffffe4⟩,
    ⟨5, 28, 0xfffffe5⟩, ⟨6, 28, 0xfffffe6⟩, ⟨7, 28, 0xfffffe7⟩, ⟨8, 28, 0xfffffe8⟩, ⟨9, 24, 0xffffea⟩,
    ⟨10, 30, 0x3ffffffc⟩, ⟨11, 28, 0xfffffe9⟩, ⟨12, 28, 0xfffffea⟩, ⟨13, 30, 0x3ffffffd⟩, ⟨14, 28, 0xfffffeb⟩,
    ⟨15, 28, 0xfffffec⟩, ⟨16, 28, 0xfffffed⟩, ⟨17, 28, 0xfffffee⟩, ⟨18, 28, 0xfffffef⟩, ⟨19, 28, 0xffffff0⟩,
    ⟨20, 28, 0xffffff1⟩, ⟨21, 28, 0xffffff2⟩, ⟨22, 30, 0x3ffffffe⟩, ⟨23, 28, 0xffffff3⟩, ⟨24, 28, 0xffffff4⟩,
    ⟨25, 28, 0xffffff5⟩, ⟨26, 28, 0xffffff6⟩, ⟨27, 28, 0xffffff7⟩, ⟨28, 28, 0xffffff8⟩, ⟨29, 28, 0xffffff9⟩,
    ⟨30, 28, 0xffffffa⟩, ⟨31, 28, 0xffffffb⟩, ⟨32, 6, 0x14⟩, ⟨33, 10, 0x3f8⟩, ⟨34, 10, 0x3f9⟩, ⟨35, 12, 0xffa⟩,
    ⟨36, 13, 0x1ff9⟩, ⟨37, 6, 0x15⟩, ⟨38, 8, 0xf8⟩, ⟨39, 11, 0x7fa⟩, ⟨40, 10, 0x3fa⟩, ⟨41, 10, 0x3fb⟩,
    ⟨42, 8, 0xf9⟩, ⟨43, 11, 0x7fb⟩, ⟨44, 8, 0xfa⟩, ⟨45, 6, 0x16⟩, ⟨46, 6, 0x17⟩, ⟨47, 6, 0x18⟩, ⟨48, 5, 0x0⟩,
    ⟨49, 5, 0x1⟩, ⟨50, 5, 0x2⟩, ⟨51, 6, 0x19⟩, ⟨52, 6, 0x1a⟩, ⟨53, 6, 0x1b⟩, ⟨54, 6, 0x1c⟩, ⟨55, 6, 0x1d⟩,
    ⟨56, 6, 0x1e⟩, ⟨57, 6, 0x1f⟩, ⟨58, 7, 0x5c⟩, ⟨59, 8, 0xfb⟩, ⟨60, 15, 0x7ffc⟩, ⟨61, 6, 0x20⟩,
    ⟨62, 12, 0xffb⟩, ⟨63, 10, 0x3fc⟩, ⟨64, 13, 0x1ffa⟩, ⟨65, 6, 0x21⟩, ⟨66, 7, 0x5d⟩, ⟨67, 7, 0x5e⟩,
    ⟨68, 7, 0x5f⟩, ⟨69, 7, 0x60⟩, ⟨70, 7, 0x61⟩, ⟨71, 7, 0x62⟩, ⟨72, 7, 0x63⟩, ⟨73, 7, 0x64⟩, ⟨74, 7, 0x65⟩,
    ⟨75, 7, 0x66⟩, ⟨76, 7, 0x67⟩, ⟨77, 7, 0x68⟩, ⟨78, 7, 0x69⟩, ⟨79, 7, 0x6a⟩, ⟨80, 7, 0x6b⟩, ⟨81, 7, 0x6c⟩,
    ⟨82, 7, 0x6d⟩, ⟨83, 7, 0x6e⟩, ⟨84, 7, 0x6f⟩, ⟨85, 7, 0x70⟩, ⟨86, 7, 0x71⟩, ⟨87, 7, 0x72⟩, ⟨88, 8, 0xfc⟩,
    ⟨89, 7, 0x73⟩, ⟨90, 8, 0xfd⟩, ⟨91, 13, 0x1ffb⟩, ⟨92, 19, 0x7fff0⟩, ⟨93, 13, 0x1ffc⟩, ⟨94, 14, 0x3ffc⟩,
    ⟨95, 6, 0x22⟩, ⟨96, 15, 0x7ffd⟩, ⟨97, 5, 0x3⟩, ⟨98, 6, 0x23⟩, ⟨99, 5, 0x4⟩, ⟨100, 6, 0x24⟩, ⟨101, 5, 0x5⟩,
    ⟨102, 6, 0x25⟩, ⟨103, 6, 0x26⟩, ⟨104, 6, 0x27⟩, ⟨105, 5, 0x6⟩, ⟨106, 7, 0x74⟩, ⟨107, 7, 0x75⟩,
    ⟨108, 6, 0x28⟩, ⟨109, 6, 0x29⟩, ⟨110, 6, 0x2a⟩, ⟨111, 5, 0x7⟩, ⟨112, 6, 0x2b⟩, ⟨113, 7, 0x76⟩,
    ⟨114, 6, 0x2c⟩, ⟨115, 5, 0x8⟩, ⟨116, 5, 0x9⟩, ⟨117, 6, 0x2d⟩, ⟨118, 7, 0x77⟩, ⟨119, 7, 0x78⟩,
    ⟨120, 7, 0x79⟩, ⟨121, 7, 0x7a⟩, ⟨122, 7, 0x7b⟩, ⟨123, 15, 0x7ffe⟩, ⟨124, 11, 0x7fc⟩, ⟨125, 14, 0x3ffd⟩,
    ⟨126, 13, 0x1ffd⟩, ⟨127, 28, 0xffffffc⟩, ⟨128, 20, 0xfffe6⟩, ⟨129, 22, 0x3fffd2⟩, ⟨130, 20, 0xfffe7⟩,
    ⟨131, 20, 0xfffe8⟩, ⟨132, 22, 0x3fffd3⟩, ⟨133, 22, 0x3fffd4⟩, ⟨134, 22, 0x3fffd5⟩, ⟨135, 23, 0x7fffd9⟩,
    ⟨136, 22, 0x3fffd6⟩, ⟨137, 23, 0x7fffda⟩, ⟨138, 23, 0x7fffdb⟩, ⟨139, 23, 0x7fffdc⟩, ⟨140, 23, 0x7fffdd⟩,
    ⟨141, 23, 0x7fffde⟩, ⟨142, 24, 0xffffeb⟩, ⟨143, 23, 0x7fffdf⟩, ⟨144, 24, 0xffffec⟩, ⟨145, 24, 0xffffed⟩,
    ⟨146, 22, 0x3fffd7⟩, ⟨147, 23, 0x7fffe0⟩, ⟨148, 24, 0xffffee⟩, ⟨149, 23, 0x7fffe1⟩, ⟨150, 23, 0x7fffe2⟩,
    ⟨151, 23, 0x7fffe3⟩, ⟨152, 23, 0x7fffe4⟩, ⟨153, 21, 0x1fffdc⟩, ⟨154, 22, 0x3fffd8⟩, ⟨155, 23, 0x7fffe5⟩,
    ⟨156, 22, 0x3fffd9⟩, ⟨157, 23, 0x7fffe6⟩, ⟨158, 23, 0x7fffe7⟩, ⟨159, 24, 0xffffef⟩, ⟨160, 22, 0x3fffda⟩,
    ⟨161, 21, 0x1fffdd⟩, ⟨162, 20, 0xfffe9⟩, ⟨163, 22, 0x3fffdb⟩, ⟨164, 22, 0x3fffdc⟩, ⟨165, 23, 0x7fffe8⟩,
    ⟨166, 23, 0x7fffe9⟩, ⟨167, 21, 0x1fffde⟩, ⟨168, 23, 0x7fffea⟩, ⟨169, 22, 0x3fffdd⟩, ⟨170, 22, 0x3fffde⟩,
    ⟨171, 24, 0xfffff0⟩, ⟨172, 21, 0x1fffdf⟩, ⟨173, 22, 0x3fffdf⟩, ⟨174, 23, 0x7fffeb⟩, ⟨175, 23, 0x7fffec⟩,
    ⟨176, 21, 0x1fffe0⟩, ⟨177, 21, 0x1fffe1⟩, ⟨178, 22, 0x3fffe0⟩, ⟨179, 21, 0x1fffe2⟩, ⟨180, 23, 0x7fffed⟩,
    ⟨181, 22, 0x3fffe1⟩, ⟨182, 23, 0x7fffee⟩, ⟨183, 23, 0x7fffef⟩, ⟨184, 20, 0xfffea⟩, ⟨185, 22, 0x3fffe2⟩,
    ⟨186, 22, 0x3fffe3⟩, ⟨187, 22, 0x3fffe4⟩, ⟨188, 23, 0x7ffff0⟩, ⟨189, 22, 0x3fffe5⟩, ⟨190, 22, 0x3fffe6⟩,
    ⟨191, 23, 0x7ffff1⟩, ⟨192, 26, 0x3ffffe0⟩, ⟨193, 26, 0x3ffffe1⟩, ⟨194, 20, 0xfffeb⟩, ⟨195, 19, 0x7fff1⟩,
    ⟨196, 22, 0x3fffe7⟩, ⟨197, 23, 0x7ffff2⟩, ⟨198, 22, 0x3fffe8⟩, ⟨199, 25, 0x1ffffec⟩, ⟨200, 26, 0x3ffffe2⟩,
    ⟨201, 26, 0x3ffffe3⟩, ⟨202, 26, 0x3ffffe4⟩, ⟨203, 27, 0x7ffffde⟩, ⟨204, 27, 0x7ffffdf⟩,
    ⟨205, 26, 0x3ffffe5⟩, ⟨206, 24, 0xfffff1⟩, ⟨207, 25, 0x1ffffed⟩, ⟨208, 19, 0x7fff2⟩, ⟨209, 21, 0x1fffe3⟩,
    ⟨210, 26, 0x3ffffe6⟩, ⟨211, 27, 0x7ffffe0⟩, ⟨212, 27, 0x7ffffe1⟩, ⟨213, 26, 0x3ffffe7⟩,
    ⟨214, 27, 0x7ffffe2⟩, ⟨215, 24, 0xfffff2⟩, ⟨216, 21, 0x1fffe4⟩, ⟨217, 21, 0x1fffe5⟩, ⟨218, 26, 0x3ffffe8⟩,
    ⟨219, 26, 0x3ffffe9⟩, ⟨220, 28, 0xffffffd⟩, ⟨221, 27, 0x7ffffe3⟩, ⟨222, 27, 0x7ffffe4⟩,
    ⟨223, 27, 0x7ffffe5⟩, ⟨224, 20, 0xfffec⟩, ⟨225, 24, 0xfffff3⟩, ⟨226, 20, 0xfffed⟩, ⟨227, 21, 0x1fffe6⟩,
    ⟨228, 22, 0x3fffe9⟩, ⟨229, 21, 0x1fffe7⟩, ⟨230, 21, 0x1fffe8⟩, ⟨231, 23, 0x7ffff3⟩, ⟨232, 22, 0x3fffea⟩,
    ⟨233, 22, 0x3fffeb⟩, ⟨234, 25, 0x1ffffee⟩, ⟨235, 25, 0x1ffffef⟩, ⟨236, 24, 0xfffff4⟩, ⟨237, 24, 0xfffff5⟩,
    ⟨238, 26, 0x3ffffea⟩, ⟨239, 23, 0x7ffff4⟩, ⟨240, 26, 0x3ffffeb⟩, ⟨241, 27, 0x7ffffe6⟩, ⟨242, 26, 0x3ffffec⟩,
    ⟨243, 26, 0x3ffffed⟩, ⟨244, 27, 0x7ffffe7⟩, ⟨245, 27, 0x7ffffe8⟩, ⟨246, 27, 0x7ffffe9⟩,
    ⟨247, 27, 0x7ffffea⟩, ⟨248, 27, 0x7ffffeb⟩, ⟨249, 28, 0xffffffe⟩, ⟨250, 27, 0x7ffffec⟩,
    ⟨251, 27, 0x7ffffed⟩, ⟨252, 27, 0x7ffffee⟩, ⟨253, 27, 0x7ffffef⟩, ⟨254, 27, 0x7fffff0⟩,
    ⟨255, 26, 0x3ffffee⟩]

def findHuffmanCodeForSymbol (symbol : UInt8) : HuffmanEntry := http2HuffmanTable.getD symbol.toNat ⟨0, 0, 0⟩

def findHuffmanCodeForCode (code len : Nat) : Option HuffmanEntry :=
  http2HuffmanTable.find? fun entry => entry.len == len && entry.code == code

/-! ## Encoding -/

/-- `http2_encoded_huffman_len`. -/
def encodedHuffmanLen (text : Bytes) : Nat :=
  let len := (text.map fun ch => (findHuffmanCodeForSymbol ch).len).sum
  len / 8 + (if len % 8 ≠ 0 then 1 else 0)

/-- The bytes from the output pointer's start on, the pointer `p` as an offset, and `used_bits`. -/
structure BitsWriter where
  mem : Bytes
  p : Nat := 0
  usedBits : Nat := 0

def BitsWriter.writeBit (w : BitsWriter) (bitI : Bool) : BitsWriter :=
  let mem := w.mem.modify w.p (· ||| UInt8.ofNat bitI.toNat)
  if w.usedBits + 1 = 8 then ⟨mem, w.p + 1, 0⟩ else ⟨mem.modify w.p (· <<< 1), w.p, w.usedBits + 1⟩

/-- The loop of `http2_encode_one_huffman_code`: the highest `len` bits of the 32-bit `code`. -/
def encodeCodeBits (w : BitsWriter) : Nat → Nat → BitsWriter
  | 0, _ => w
  | len + 1, code => encodeCodeBits (w.writeBit (code.testBit 31)) len (code <<< 1 % 2 ^ 32)

def encodeOneHuffmanCode (w : BitsWriter) (entry : HuffmanEntry) : BitsWriter :=
  encodeCodeBits w entry.len (entry.code <<< (32 - entry.len))

/-- `http2_encode_huffman`: the memory afterwards and the value that is returned. -/
def encodeHuffman (text : Bytes) (mem : Bytes) : Bytes × Nat :=
  let w := text.foldl (fun w ch => encodeOneHuffmanCode w (findHuffmanCodeForSymbol ch)) { mem }
  if w.usedBits ≠ 0 then
    let onesMask := (0xff : UInt8) >>> UInt8.ofNat w.usedBits
    (w.mem.modify w.p fun b => (b <<< UInt8.ofNat (8 - w.usedBits - 1)) ||| onesMask, w.p)
  else (w.mem, w.p)

/-! ## Decoding -/

/-- `bits_reader_t`. -/
structure BitsReader where
  bytes : Bytes
  byte : UInt8 := 0
  usedBits : Nat := 8
  used_le : usedBits ≤ 8 := by omega

namespace BitsReader

def empty (r : BitsReader) : Bool := r.bytes.isEmpty && r.usedBits == 8

/-- The top bit of the current byte, which is then shifted out. -/
def takeBit (bytes : Bytes) (byte : UInt8) (usedBits : Nat) (h : usedBits < 8) : Bool × BitsReader :=
  (byte &&& 128 != 0, ⟨bytes, byte <<< 1, usedBits + 1, h⟩)

/-- `none` is the error `no_buffer_space`. -/
def getNextBit (r : BitsReader) : Option (Bool × BitsReader) :=
  if h : r.usedBits = 8 then
    match r.bytes with
    | [] => none
    | byte :: bytes => some (takeBit bytes byte 0 (by omega))
  else some (takeBit r.bytes r.byte r.usedBits (by have := r.used_le; omega))

/-- The count of bits that are still to be read. -/
def remaining (r : BitsReader) : Nat := 8 - r.usedBits + 8 * r.bytes.length

theorem remaining_getNextBit {r r' : BitsReader} {b : Bool} (h : r.getNextBit = some (b, r')) :
    r'.remaining + 1 = r.remaining := by
  have hu := r.used_le
  unfold getNextBit at h
  split at h
  · cases hb : r.bytes with
    | nil => simp [hb] at h
    | cons byte bytes =>
        simp only [hb, takeBit, Option.some.injEq, Prod.mk.injEq] at h
        obtain ⟨-, rfl⟩ := h
        simp only [remaining, hb, List.length_cons]
        omega
  · simp only [takeBit, Option.some.injEq, Prod.mk.injEq] at h
    obtain ⟨-, rfl⟩ := h
    simp only [remaining]
    omega

end BitsReader

/-- How reading one code ends: with its symbol, at the end of the input, or with 30 bits that are no code. -/
inductive CodeRead where
  | symbol (symbol : UInt8) (reader : BitsReader)
  | exhausted (code codeLen : Nat)
  | notFound

/-- The loops over one code: the first four bits are read without looking for a code, the others one by one. -/
def readCode (reader : BitsReader) (code codeLen : Nat) : CodeRead :=
  if codeLen < 30 then
    match reader.getNextBit with
    | none => .exhausted (code >>> 1) codeLen
    | some (bit, reader) =>
      let code := code ||| bit.toNat
      if codeLen < 4 then readCode reader (code <<< 1) (codeLen + 1)
      else
        match findHuffmanCodeForCode code (codeLen + 1) with
        | some hcode => .symbol hcode.symbol reader
        | none => readCode reader (code <<< 1) (codeLen + 1)
  else .notFound
termination_by 30 - codeLen

theorem remaining_readCode {reader reader' : BitsReader} {code codeLen : Nat} {s : UInt8}
    (h : readCode reader code codeLen = .symbol s reader') : reader'.remaining < reader.remaining := by
  induction hn : 30 - codeLen generalizing reader code codeLen with
  | zero => rw [readCode, if_neg (by omega)] at h; cases h
  | succ n ih =>
      rw [readCode, if_pos (by omega)] at h
      rcases hb : reader.getNextBit with _ | ⟨bit, r⟩
      · rw [hb] at h; cases h
      · have hr := BitsReader.remaining_getNextBit hb
        simp only [hb] at h
        split at h
        · have := ih h (by omega); omega
        · split at h
          · cases h; omega
          · have := ih h (by omega); omega

/-- The loop of `http2_decode_huffman`: the symbols up to the end or up to the error. Leftover bits that are all ones are
padding. -/
def decodeSymbols (reader : BitsReader) : Bytes × Option Errc :=
  if reader.empty then ([], none)
  else
    match h : readCode reader 0 0 with
    | .symbol s reader' =>
      have := remaining_readCode h
      let r := decodeSymbols reader'
      (s :: r.1, r.2)
    | .exhausted code codeLen => ([], if code = 2 ^ codeLen - 1 then none else some .noBufferSpace)
    | .notFound => ([], some .invalidArgument)
termination_by reader.remaining

/-- The loop of `http2_decoded_huffman_len`, with `len` symbols counted: an error ends it with `0`. -/
def countSymbols (len : Nat) (reader : BitsReader) : Nat :=
  if reader.empty then len
  else
    match h : readCode reader 0 0 with
    | .symbol _ reader' =>
      have := remaining_readCode h
      countSymbols (len + 1) reader'
    | .exhausted code codeLen => if code = 2 ^ codeLen - 1 then len else 0
    | .notFound => 0
termination_by reader.remaining

/-- `http2_decoded_huffman_len`. -/
def decodedHuffmanLen (encoded : Bytes) : Nat := countSymbols 0 { bytes := encoded }

/-- `http2_decode_huffman`: the symbols that are written to `p`, and the error. -/
def decodeHuffman (encoded : Bytes) : Bytes × Option Errc := decodeSymbols { bytes := encoded }

end Rad.Hpack
