import Rad.Hpack.Lemmas.HuffmanDecode
import Rad.Hpack.Decoder

/-!
# The wire representations are read back

Integers with their prefix bits, strings with their length, and the indexes of names.
-/

namespace Rad.Hpack

open Lib Http

/-! ## Encoding Huffman codes, and the round trip

The writer leaves the code words followed by a padding of ones, in the bytes that `encodedHuffmanLen` counts and
nowhere else.
-/

/-! ## Bytes -/

theorem ofNat_or_bit (v : Nat) (b : Bool) (hv : v < 128) :
    UInt8.ofNat (2 * v) ||| UInt8.ofNat b.toNat = UInt8.ofNat (2 * v + b.toNat) := by
  have h : ∀ b : Bool, ∀ v < 128, UInt8.ofNat (2 * v) ||| UInt8.ofNat b.toNat = UInt8.ofNat (2 * v + b.toNat) := by
    decide
  exact h b v hv

theorem ofNat_shift (v : Nat) (hv : v < 128) : UInt8.ofNat v <<< 1 = UInt8.ofNat (2 * v) := by
  have h : ∀ v < 128, UInt8.ofNat v <<< 1 = UInt8.ofNat (2 * v) := by decide
  exact h v hv

theorem ofNat_pad (u v : Nat) (hu : u < 8) (hv : v < 2 ^ u) :
    (UInt8.ofNat (2 * v) <<< UInt8.ofNat (8 - u - 1)) ||| ((0xff : UInt8) >>> UInt8.ofNat u) =
      UInt8.ofNat (v * 2 ^ (8 - u) + (2 ^ (8 - u) - 1)) := by
  have h : ∀ u < 8, ∀ v < 2 ^ u,
      (UInt8.ofNat (2 * v) <<< UInt8.ofNat (8 - u - 1)) ||| ((0xff : UInt8) >>> UInt8.ofNat u) =
        UInt8.ofNat (v * 2 ^ (8 - u) + (2 ^ (8 - u) - 1)) := by decide
  exact h u hu v hv

theorem toBits_byte {bits : List Bool} (h : bits.length = 8) : toBits 8 (UInt8.ofNat (ofBits bits)).toNat = bits := by
  have hlt := ofBits_lt bits
  rw [h] at hlt
  rw [UInt8.toNat_ofNat', Nat.mod_eq_of_lt (by omega), ← h, toBits_ofBits]

theorem modify_cell (done : Bytes) (c : UInt8) (tail : Bytes) (f : UInt8 → UInt8) :
    (done ++ c :: tail).modify done.length f = done ++ f c :: tail := by
  induction done with
  | nil => rfl
  | cons d done ih => simp [ih]

/-! ## The writer -/

/-- The cells of the buffer from the pointer on: the bits of the current byte are shifted up by one. -/
def cells (part : List Bool) : Nat → Bytes
  | 0 => []
  | k + 1 => UInt8.ofNat (2 * ofBits part) :: List.replicate k 0

theorem cells_nil (k : Nat) : cells [] k = List.replicate k 0 := by cases k <;> rfl

/-- `bits` have been written to a buffer of `n` zero bytes; behind the buffer the memory is `rest`. -/
def BitsWriter.Wrote (w : BitsWriter) (n : Nat) (rest : Bytes) (bits : List Bool) : Prop :=
  ∃ done part, bits = bitsOf done ++ part ∧ w.p = done.length ∧ w.usedBits = part.length ∧ part.length < 8 ∧
    w.mem = done ++ cells part (n - done.length) ++ rest

theorem BitsWriter.Wrote.start (n : Nat) (rest : Bytes) :
    ({ mem := List.replicate n 0 ++ rest } : BitsWriter).Wrote n rest [] :=
  ⟨[], [], rfl, rfl, rfl, by simp, by simp [cells_nil]⟩

theorem BitsWriter.Wrote.writeBit {w : BitsWriter} {n : Nat} {rest : Bytes} {bits : List Bool}
    (h : w.Wrote n rest bits) (hn : bits.length < 8 * n) (b : Bool) : (w.writeBit b).Wrote n rest (bits ++ [b]) := by
  obtain ⟨done, part, rfl, hp, hu, hpart, hmem⟩ := h
  rw [List.length_append, length_bitsOf] at hn
  obtain ⟨k, hk⟩ : ∃ k, n - done.length = k + 1 := ⟨n - done.length - 1, by omega⟩
  have hlt : ofBits part < 2 ^ 7 :=
    Nat.lt_of_lt_of_le (ofBits_lt part) (Nat.pow_le_pow_right (by omega) (by omega))
  have hmod : w.mem.modify w.p (· ||| UInt8.ofNat b.toNat) =
      done ++ UInt8.ofNat (ofBits (part ++ [b])) :: (List.replicate k 0 ++ rest) := by
    rw [hmem, hk, hp, cells, List.append_assoc, List.cons_append, modify_cell, ofNat_or_bit _ _ hlt, ofBits_concat]
  simp only [BitsWriter.writeBit, hmod]
  by_cases h8 : w.usedBits + 1 = 8
  · -- the byte is complete, and the pointer moves to the next one
    rw [if_pos h8]
    have hlen : (part ++ [b]).length = 8 := by rw [List.length_append, List.length_singleton]; omega
    refine ⟨done ++ [UInt8.ofNat (ofBits (part ++ [b]))], [], ?_, by simp [hp], rfl, by simp, ?_⟩
    · rw [bitsOf_append, bitsOf_cons, toBits_byte hlen]
      simp [bitsOf]
    · rw [cells_nil, List.length_append, List.length_singleton, show n - (done.length + 1) = k by omega]
      simp
  · rw [if_neg h8]
    have hlen : (part ++ [b]).length ≤ 7 := by rw [List.length_append, List.length_singleton]; omega
    have hlt' : ofBits (part ++ [b]) < 2 ^ 7 :=
      Nat.lt_of_lt_of_le (ofBits_lt _) (Nat.pow_le_pow_right (by omega) hlen)
    refine ⟨done, part ++ [b], by simp, hp, by simp [hu], by omega, ?_⟩
    rw [hp, modify_cell, ofNat_shift _ hlt', hk, cells]
    simp

theorem BitsWriter.Wrote.encodeCodeBits {n : Nat} {rest : Bytes} : ∀ {len code : Nat} {w : BitsWriter}
    {bits : List Bool}, w.Wrote n rest bits → bits.length + len ≤ 8 * n →
      (encodeCodeBits w len code).Wrote n rest (bits ++ topBits len code)
  | 0, _, _, _, h, _ => by simpa [Hpack.encodeCodeBits, topBits] using h
  | len + 1, code, w, bits, h, hn => by
      have hstep := h.writeBit (by omega) (code.testBit 31)
      have := @BitsWriter.Wrote.encodeCodeBits _ _ len (code <<< 1 % 2 ^ 32) _ _ hstep (by simp; omega)
      simpa [Hpack.encodeCodeBits, topBits] using this

theorem BitsWriter.Wrote.encodeText {n : Nat} {rest : Bytes} : ∀ {text : Bytes} {w : BitsWriter} {bits : List Bool},
    w.Wrote n rest bits → bits.length + (text.flatMap codeWord).length ≤ 8 * n →
      (text.foldl (fun w ch => encodeOneHuffmanCode w (findHuffmanCodeForSymbol ch)) w).Wrote n rest
        (bits ++ text.flatMap codeWord)
  | [], _, _, h, _ => by simpa using h
  | ch :: text, w, bits, h, hn => by
      rw [List.flatMap_cons, List.length_append] at hn
      have hlen : (codeWord ch).length = (findHuffmanCodeForSymbol ch).len := HuffmanEntry.length_bits _
      have hone : (encodeOneHuffmanCode w (findHuffmanCodeForSymbol ch)).Wrote n rest (bits ++ codeWord ch) :=
        h.encodeCodeBits (by omega)
      have := @BitsWriter.Wrote.encodeText _ _ text _ _ hone (by rw [List.length_append]; omega)
      simpa using this

/-- The count of padding bits after `len` bits. -/
def padding (len : Nat) : Nat := (8 - len % 8) % 8

theorem BitsWriter.Wrote.finish {w : BitsWriter} {n : Nat} {rest : Bytes} {bits : List Bool}
    (h : w.Wrote n rest bits) (hn : bits.length + padding bits.length = 8 * n) :
    ∃ out, out.length = n ∧ bitsOf out = bits ++ List.replicate (padding bits.length) true ∧
      (if w.usedBits ≠ 0 then
        w.mem.modify w.p fun b => (b <<< UInt8.ofNat (8 - w.usedBits - 1)) ||| ((0xff : UInt8) >>> UInt8.ofNat w.usedBits)
      else w.mem) = out ++ rest := by
  obtain ⟨done, part, rfl, hp, hu, hpart, hmem⟩ := h
  have hmod : (bitsOf done ++ part).length % 8 = part.length := by
    rw [List.length_append, length_bitsOf]; omega
  simp only [padding, hmod] at hn ⊢
  rw [List.length_append, length_bitsOf] at hn
  by_cases h0 : w.usedBits = 0
  · have hnil : part = [] := List.length_eq_zero_iff.mp (by omega)
    subst hnil
    refine ⟨done, by simp at hn; omega, by simp, ?_⟩
    rw [if_neg (by omega), hmem, cells_nil, show n - done.length = 0 by simp at hn; omega]
    simp
  · rw [if_pos h0]
    have hone : n - done.length = 1 := by omega
    have hpad : (8 - part.length) % 8 = 8 - part.length := Nat.mod_eq_of_lt (by omega)
    have hlen : (part ++ List.replicate (8 - part.length) true).length = 8 := by
      rw [List.length_append, List.length_replicate]; omega
    refine ⟨done ++ [UInt8.ofNat (ofBits (part ++ List.replicate (8 - part.length) true))], ?_, ?_, ?_⟩
    · rw [List.length_append, List.length_singleton]; omega
    · rw [hpad, bitsOf_append, bitsOf_cons, toBits_byte hlen, List.append_assoc]
      simp [bitsOf]
    · rw [hmem, hone, hp, hu, cells, List.append_assoc, List.cons_append, modify_cell,
        ofNat_pad _ _ hpart (ofBits_lt part), ofBits_append, List.length_replicate, ofBits_replicate_true]
      simp

/-! ## The round trip -/

theorem length_flatMap_codeWord (text : Bytes) :
    (text.flatMap codeWord).length = (text.map fun ch => (findHuffmanCodeForSymbol ch).len).sum := by
  induction text with
  | nil => rfl
  | cons ch text ih =>
      rw [List.flatMap_cons, List.length_append, ih, List.map_cons, List.sum_cons, codeWord, HuffmanEntry.length_bits]

theorem encodedHuffmanLen_eq (text : Bytes) :
    (text.flatMap codeWord).length + padding (text.flatMap codeWord).length = 8 * encodedHuffmanLen text := by
  simp only [encodedHuffmanLen, ← length_flatMap_codeWord, padding]
  split <;> omega

/-- `encode_huffman` fills a zeroed buffer of `encoded_huffman_len` bytes with the code words and the padding, and leaves
the memory behind it alone. -/
theorem encodeHuffman_bits (text rest : Bytes) :
    ∃ out, out.length = encodedHuffmanLen text ∧
      (encodeHuffman text (List.replicate (encodedHuffmanLen text) 0 ++ rest)).1 = out ++ rest ∧
      bitsOf out = text.flatMap codeWord ++ List.replicate (padding (text.flatMap codeWord).length) true := by
  have hlen := encodedHuffmanLen_eq text
  have hwrote := @BitsWriter.Wrote.encodeText _ _ text _ _ (.start (encodedHuffmanLen text) rest)
    (by rw [List.length_nil]; omega)
  rw [List.nil_append] at hwrote
  obtain ⟨out, hout, hbits, hmem⟩ := hwrote.finish hlen
  refine ⟨out, hout, ?_, hbits⟩
  rw [← hmem, encodeHuffman]
  split <;> rfl

theorem padding_lt (len : Nat) : padding len < 8 := Nat.mod_lt _ (by omega)

/-- What is written is decoded to the text. -/
theorem encodeHuffman_spec (text rest : Bytes) :
    ∃ out, out.length = encodedHuffmanLen text ∧
      (encodeHuffman text (List.replicate (encodedHuffmanLen text) 0 ++ rest)).1 = out ++ rest ∧
      decodeHuffman out = (text, none) := by
  obtain ⟨out, hout, hmem, hbits⟩ := encodeHuffman_bits text rest
  have hpad := padding_lt (text.flatMap codeWord).length
  exact ⟨out, hout, hmem, decodeHuffman_eq_iff.mpr ⟨_, by omega, hbits⟩⟩

theorem decodedHuffmanLen_of_ok {encoded text : Bytes} (h : decodeHuffman encoded = (text, none)) :
    decodedHuffmanLen encoded = text.length := by
  rw [decodedHuffmanLen_eq, h]

/-- A string that lies in memory: even the count of its Huffman code bits is below `2 ^ 64`. -/
def Addressable (s : Bytes) : Prop := s.length < 2 ^ 59

instance (s : Bytes) : Decidable (Addressable s) := inferInstanceAs (Decidable (s.length < 2 ^ 59))

/-! ## Integers -/

theorem hpackEncodeInteger_cons {n : Nat} (hn : n ≤ 8) (i : Nat) :
    ∃ b tail, hpackEncodeInteger n i = b :: tail ∧ b.toNat < 2 ^ n := by
  have hpow : 2 ^ n ≤ 2 ^ 8 := Nat.pow_le_pow_right (by omega) hn
  have hpos := Nat.two_pow_pos n
  simp only [hpackEncodeInteger]
  split
  · refine ⟨_, _, rfl, ?_⟩
    rw [UInt8.toNat_ofNat', Nat.mod_eq_of_lt (by omega)]; omega
  · refine ⟨_, _, rfl, ?_⟩
    rw [UInt8.toNat_ofNat', Nat.mod_eq_of_lt (by omega)]; omega

/-- An integer whose first byte gets bits above its prefix, by `f`, is read back. -/
theorem hpackEncodeInteger_modifyHead {n i : Nat} (hn : n ≤ 8) (hi : i < 2 ^ 64) {f : UInt8 → UInt8}
    (hf : ∀ b : UInt8, b.toNat < 2 ^ n → (f b).toNat % 2 ^ n = b.toNat) :
    ∃ b tail, b.toNat < 2 ^ n ∧ (hpackEncodeInteger n i).modifyHead f = f b :: tail ∧
      ∀ rest, hpackDecodeInteger n (f b :: (tail ++ rest)) = some ((f b :: tail).length, i) := by
  obtain ⟨b, tail, heq, hb⟩ := hpackEncodeInteger_cons hn i
  refine ⟨b, tail, hb, by rw [heq]; rfl, fun rest => ?_⟩
  exact hpackDecodeInteger_encode hn hi heq (hf b hb) rest

/-! ## The bits above the prefix -/

theorem lengthByte_spec {b : UInt8} (hb : b.toNat < 2 ^ 7) (huffman : Bool) :
    (assignBit 7 b huffman).toNat % 2 ^ 7 = b.toNat ∧ (assignBit 7 b huffman &&& 128 != 0) = huffman := by
  have h : ∀ huffman : Bool, ∀ n < 2 ^ 7, (assignBit 7 (UInt8.ofNat n) huffman).toNat % 2 ^ 7 = n ∧
      (assignBit 7 (UInt8.ofNat n) huffman &&& 128 != 0) = huffman := by decide +kernel
  simpa using h huffman b.toNat hb

theorem indexByte_spec {b : UInt8} (hb : b.toNat < 2 ^ 7) :
    (b ||| 0x80).toNat % 2 ^ 7 = b.toNat ∧ ((b ||| 0x80) &&& 128 != 0) = true ∧ ((b ||| 0x80) >>> 5 == 1) = false := by
  have h : ∀ n < 2 ^ 7, (UInt8.ofNat n ||| 0x80).toNat % 2 ^ 7 = n ∧ ((UInt8.ofNat n ||| 0x80) &&& 128 != 0) = true ∧
      ((UInt8.ofNat n ||| 0x80) >>> 5 == 1) = false := by decide +kernel
  simpa using h b.toNat hb

/-- The first byte of a literal: what the decoder tests on it. -/
structure LiteralByte (b : UInt8) (indexed neverIndexed : Bool) : Prop where
  noUpdate : (b >>> 5 == 1) = false
  noIndex : (b &&& 128 != 0) = false
  indexed_eq : (b &&& 64 != 0) = indexed
  plain : (!indexed && !(b >>> 4 == 0 || b >>> 4 == 1)) = false
  never_eq : (!indexed && b >>> 4 == 1) = neverIndexed

theorem plainByte_spec {b : UInt8} (hb : b.toNat < 2 ^ 4) (neverIndexed : Bool) :
    (assignBit 4 (b &&& 0x0f) neverIndexed).toNat % 2 ^ 4 = b.toNat ∧
      LiteralByte (assignBit 4 (b &&& 0x0f) neverIndexed) false neverIndexed := by
  have h : ∀ neverIndexed : Bool, ∀ n < 2 ^ 4,
      let c := assignBit 4 (UInt8.ofNat n &&& 0x0f) neverIndexed
      c.toNat % 2 ^ 4 = n ∧ (c >>> 5 == 1) = false ∧ (c &&& 128 != 0) = false ∧ (c &&& 64 != 0) = false ∧
        (!false && !(c >>> 4 == 0 || c >>> 4 == 1)) = false ∧ (!false && c >>> 4 == 1) = neverIndexed := by
    decide +kernel
  have hn := h neverIndexed b.toNat hb
  simp only [UInt8.ofNat_toNat] at hn
  obtain ⟨h0, h1, h2, h3, h4, h5⟩ := hn
  exact ⟨h0, ⟨h1, h2, h3, h4, h5⟩⟩

theorem incrementalByte_spec {b : UInt8} (hb : b.toNat < 2 ^ 6) :
    ((b &&& 0x7f) ||| 0x40).toNat % 2 ^ 6 = b.toNat ∧ LiteralByte ((b &&& 0x7f) ||| 0x40) true false := by
  have h : ∀ n < 2 ^ 6,
      let c := (UInt8.ofNat n &&& 0x7f) ||| 0x40
      c.toNat % 2 ^ 6 = n ∧ (c >>> 5 == 1) = false ∧ (c &&& 128 != 0) = false ∧ (c &&& 64 != 0) = true ∧
        (!true && !(c >>> 4 == 0 || c >>> 4 == 1)) = false ∧ (!true && c >>> 4 == 1) = false := by
    decide +kernel
  have hn := h b.toNat hb
  simp only [UInt8.ofNat_toNat] at hn
  obtain ⟨h0, h1, h2, h3, h4, h5⟩ := hn
  exact ⟨h0, ⟨h1, h2, h3, h4, h5⟩⟩

/-- The first byte of a literal and the index after it, whichever representation the flags choose. -/
theorem encodeNameIndex_spec (flags : Flags) {index : Nat} (hi : index < 2 ^ 64) :
    ∃ b tail, encodeNameIndex flags.indexed flags.neverIndexed index = b :: tail ∧
      LiteralByte b (flags.indexed && !flags.neverIndexed) flags.neverIndexed ∧
      ∀ rest, hpackDecodeInteger (if (flags.indexed && !flags.neverIndexed) then 6 else 4) (b :: (tail ++ rest)) =
        some ((b :: tail).length, index) := by
  unfold encodeNameIndex
  by_cases hlit : (flags.neverIndexed || !flags.indexed) = true
  · obtain ⟨b, tail, hb, heq, hdec⟩ := hpackEncodeInteger_modifyHead (n := 4) (by omega) hi
      (f := fun b => assignBit 4 (b &&& 0x0f) flags.neverIndexed) fun b hb => (plainByte_spec hb _).1
    have hflag : (flags.indexed && !flags.neverIndexed) = false := by
      revert hlit; cases flags.indexed <;> cases flags.neverIndexed <;> simp
    rw [if_pos hlit, hflag]
    exact ⟨_, tail, heq, (plainByte_spec hb _).2, hdec⟩
  · obtain ⟨b, tail, hb, heq, hdec⟩ := hpackEncodeInteger_modifyHead (n := 6) (by omega) hi
      (f := fun b => (b &&& 0x7f) ||| 0x40) fun b hb => (incrementalByte_spec hb).1
    have hflag : (flags.indexed && !flags.neverIndexed) = true ∧ flags.neverIndexed = false := by
      revert hlit; cases flags.indexed <;> cases flags.neverIndexed <;> simp
    rw [if_neg hlit, hflag.1, hflag.2]
    exact ⟨_, tail, heq, (incrementalByte_spec hb).2, hdec⟩

/-! ## Strings -/

theorem encodedHuffmanLen_lt {text : Bytes} (h : Addressable text) : encodedHuffmanLen text < 2 ^ 64 := by
  have hsum : ∀ text : Bytes, (text.map fun ch => (findHuffmanCodeForSymbol ch).len).sum ≤ 30 * text.length := by
    intro text
    induction text with
    | nil => simp
    | cons ch text ih =>
        have := (table_entry (findHuffmanCodeForSymbol_mem ch).1).2.2.1
        simp only [List.map_cons, List.sum_cons, List.length_cons]
        omega
  have := hsum text
  unfold Addressable at h
  simp only [encodedHuffmanLen]
  split <;> omega

theorem decodeLengthString_sent {sent : Bytes} (huffman : Bool) (hne : sent ≠ []) (hlen : sent.length < 2 ^ 64)
    (rest : Bytes) :
    decodeLengthString ((hpackEncodeInteger 7 sent.length).modifyHead (assignBit 7 · huffman) ++ sent ++ rest) =
      if huffman then
        if decodedHuffmanLen sent = 0 then .error .invalidArgument
        else
          match decodeHuffman sent with
          | (_, some ec) => .error ec
          | (symbols, none) => .ok
              (((hpackEncodeInteger 7 sent.length).modifyHead (assignBit 7 · huffman) ++ sent).length,
                overwrite (List.replicate (decodedHuffmanLen sent) 0) 0 symbols)
      else .ok (((hpackEncodeInteger 7 sent.length).modifyHead (assignBit 7 · huffman) ++ sent).length, sent) := by
  obtain ⟨b, tail, hb, heq, hdec⟩ := hpackEncodeInteger_modifyHead (n := 7) (by omega) hlen
    (f := fun b => assignBit 7 b huffman) fun b hb => (lengthByte_spec hb _).1
  have hpos : 0 < sent.length := List.length_pos_iff.mpr hne
  have hdrop : (assignBit 7 b huffman :: (tail ++ (sent ++ rest))).drop (assignBit 7 b huffman :: tail).length =
      sent ++ rest := by simp
  rw [heq]
  simp only [List.cons_append, List.append_assoc, decodeLengthString, hdec, (lengthByte_spec hb huffman).2, hdrop]
  rw [if_neg (by omega), if_neg (by simp)]
  simp only [List.take_left', List.length_cons, List.length_append]
  cases huffman
  · simp; omega
  · simp only [Bool.not_true, Bool.false_eq_true, if_false, if_true]
    split
    · rfl
    · rcases decodeHuffman sent with ⟨symbols, _ | ec⟩
      · simp only [Except.ok.injEq, Prod.mk.injEq, and_true]; omega
      · rfl

theorem overwrite_replicate (text : Bytes) : overwrite (List.replicate text.length 0) 0 text = text := by
  simp [overwrite]

theorem decodeLengthString_encode {text : Bytes} (haddr : Addressable text) (huffman : Bool) (rest : Bytes) :
    decodeLengthString (encodeLengthString text huffman ++ rest) =
      .ok ((encodeLengthString text huffman).length, text) := by
  unfold encodeLengthString
  by_cases hnil : text = []
  · subst hnil
    simp [decodeLengthString, hpackDecodeInteger]
  · have hpos : 0 < text.length := List.length_pos_iff.mpr hnil
    simp only [if_neg hnil]
    cases huffman
    · simp only [Bool.false_eq_true, if_false]
      rw [decodeLengthString_sent false hnil (by unfold Addressable at haddr; omega)]
      simp
    · obtain ⟨out, hlen, hmem, hdec⟩ := encodeHuffman_spec text []
      rw [List.append_nil, List.append_nil] at hmem
      have hdlen := decodedHuffmanLen_of_ok hdec
      have hne : out ≠ [] := by
        rintro rfl
        have : decodeHuffman [] = ([], none) := by
          rw [decodeHuffman, decodeSymbols, if_pos (by rfl)]
        rw [this] at hdec
        cases hdec
        exact hnil rfl
      simp only [if_true, hmem]
      rw [decodeLengthString_sent true hne (by rw [hlen]; exact encodedHuffmanLen_lt haddr), hdlen, hdec]
      rw [if_pos rfl, if_neg (by omega)]
      simp only [overwrite_replicate]

example : decodeLengthString (encodeLengthString [0x61, 0x62] false) = .ok (3, [0x61, 0x62]) := by decide +kernel

end Rad.Hpack
