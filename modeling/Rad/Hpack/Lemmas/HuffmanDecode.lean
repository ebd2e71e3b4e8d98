import Rad.Hpack.Huffman
import Mathlib.Data.List.Sort
import Mathlib.Data.List.Pairwise

/-!
# Decoding Huffman codes

The table is a prefix code. The reader delivers the bits of the bytes in order, and reading code by code refines
reading a prefix code.
-/

namespace Rad.Hpack

open Lib

/-! ## The table is a prefix code -/

/-- The highest `len` bits of a 32-bit value, as the encoder shifts them out. -/
def topBits : Nat → Nat → List Bool
  | 0, _ => []
  | len + 1, code => code.testBit 31 :: topBits len (code <<< 1 % 2 ^ 32)

/-- The code word of a table entry. -/
def HuffmanEntry.bits (e : HuffmanEntry) : List Bool := topBits e.len (e.code <<< (32 - e.len))

/-- The code word of a symbol. -/
def codeWord (ch : UInt8) : List Bool := (findHuffmanCodeForSymbol ch).bits

@[simp] theorem length_topBits (len code : Nat) : (topBits len code).length = len := by
  induction len generalizing code with
  | zero => rfl
  | succ len ih => simp [topBits, ih]

@[simp] theorem HuffmanEntry.length_bits (e : HuffmanEntry) : e.bits.length = e.len := length_topBits _ _

/-- The entries stand in the order of their symbols. -/
theorem table_symbols : http2HuffmanTable.map HuffmanEntry.symbol = (List.range 256).map UInt8.ofNat := by
  decide +kernel

/-- Each code fits in its length, between 5 and 30 bits, and is not all ones. -/
theorem table_codes : ∀ e ∈ http2HuffmanTable, 5 ≤ e.len ∧ e.len ≤ 30 ∧ e.code + 1 < 2 ^ e.len := by decide +kernel

theorem table_getElem? (i : Nat) :
    (http2HuffmanTable[i]?).map HuffmanEntry.symbol = if i < 256 then some (UInt8.ofNat i) else none := by
  have h := congrArg (·[i]?) table_symbols
  simp only [List.getElem?_map] at h
  rw [h]
  split
  · rename_i hlt
    rw [List.getElem?_range hlt, Option.map_some]
  · rename_i hge
    rw [List.getElem?_eq_none (by rw [List.length_range]; omega), Option.map_none]

example : http2HuffmanTable[0x61]? = some { symbol := 0x61, code := 0x3, len := 5 } := by decide +kernel

theorem findHuffmanCodeForSymbol_mem (ch : UInt8) :
    findHuffmanCodeForSymbol ch ∈ http2HuffmanTable ∧ (findHuffmanCodeForSymbol ch).symbol = ch := by
  have hget := table_getElem? ch.toNat
  rw [if_pos ch.toNat_lt, UInt8.ofNat_toNat] at hget
  obtain ⟨e, he, hsymbol⟩ := Option.map_eq_some_iff.mp hget
  rw [findHuffmanCodeForSymbol, List.getD_eq_getElem?_getD, he]
  exact ⟨List.mem_of_getElem? he, hsymbol⟩

theorem findHuffmanCodeForSymbol_symbol {e : HuffmanEntry} (he : e ∈ http2HuffmanTable) :
    findHuffmanCodeForSymbol e.symbol = e := by
  obtain ⟨i, hi⟩ := List.mem_iff_getElem?.mp he
  have hget := table_getElem? i
  rw [hi, Option.map_some] at hget
  split at hget
  · rename_i hlt
    rw [findHuffmanCodeForSymbol, List.getD_eq_getElem?_getD, Option.some.inj hget, UInt8.toNat_ofNat',
      Nat.mod_eq_of_lt hlt, hi, Option.getD_some]
  · cases hget

/-- The highest bits of a 32-bit value write its quotient. -/
theorem ofBits_topBits : ∀ {len code : Nat}, len ≤ 32 → code < 2 ^ 32 → ofBits (topBits len code) = code / 2 ^ (32 - len)
  | 0, code, _, hcode => by rw [topBits, ofBits_nil, Nat.div_eq_of_lt hcode]
  | len + 1, code, hlen, hcode => by
      have hpow : 2 ^ (32 - len) = 2 * 2 ^ (31 - len) := by rw [← Nat.pow_succ']; congr 1; omega
      have hhigh : 2 ^ 31 = 2 ^ len * 2 ^ (31 - len) := by rw [← Nat.pow_add, Nat.add_sub_cancel' (by omega)]
      have hbit : (code.testBit 31).toNat = code / 2 ^ 31 := by
        rw [Nat.testBit_eq_decide_div_mod_eq, Nat.mod_eq_of_lt (by omega)]
        rcases Nat.lt_or_ge code (2 ^ 31) with h | h
        · rw [Nat.div_eq_of_lt h]; rfl
        · rw [show code / 2 ^ 31 = 1 by omega]; rfl
      -- shifting drops the highest bit and doubles what is left
      have hrest : code <<< 1 % 2 ^ 32 = 2 * (code % 2 ^ 31) := by rw [Nat.shiftLeft_eq]; omega
      rw [topBits, ← List.singleton_append, ofBits_append, length_topBits, ofBits_topBits (by omega) (Nat.mod_lt _ (by omega)),
        hrest, hpow, Nat.mul_div_mul_left _ _ (by omega), show 32 - (len + 1) = 31 - len by omega]
      have hsingle : ofBits [code.testBit 31] = code / 2 ^ 31 := by rw [← hbit]; simp [ofBits]
      have hsplit : code = code % 2 ^ 31 + code / 2 ^ 31 * 2 ^ len * 2 ^ (31 - len) := by
        rw [Nat.mul_assoc, ← hhigh, Nat.mod_add_div']
      calc ofBits [code.testBit 31] * 2 ^ len + code % 2 ^ 31 / 2 ^ (31 - len)
          = (code % 2 ^ 31 + code / 2 ^ 31 * 2 ^ len * 2 ^ (31 - len)) / 2 ^ (31 - len) := by
            rw [hsingle, Nat.add_mul_div_right _ _ (Nat.two_pow_pos _), Nat.add_comm]
        _ = code / 2 ^ (31 - len) := by rw [← hsplit]

/-- Each entry is found under its own symbol, has between 5 and 30 bits, and its code word writes its code. -/
theorem table_entry {e : HuffmanEntry} (he : e ∈ http2HuffmanTable) :
    findHuffmanCodeForSymbol e.symbol = e ∧ 5 ≤ e.len ∧ e.len ≤ 30 ∧ ofBits e.bits = e.code := by
  obtain ⟨hlow, hhigh, hcode⟩ := table_codes e he
  have hpow : 2 ^ 32 = 2 ^ e.len * 2 ^ (32 - e.len) := by rw [← Nat.pow_add, Nat.add_sub_cancel' (by omega)]
  have hlt : e.code * 2 ^ (32 - e.len) < 2 ^ 32 := by
    rw [hpow]
    exact Nat.mul_lt_mul_of_pos_right (by omega) (Nat.two_pow_pos _)
  refine ⟨findHuffmanCodeForSymbol_symbol he, hlow, hhigh, ?_⟩
  rw [HuffmanEntry.bits, Nat.shiftLeft_eq, ofBits_topBits (by omega) hlt, Nat.mul_div_cancel _ (Nat.two_pow_pos _)]

/-- The 30-bit strings that begin with the code word are the numbers from `start` to `stop`. -/
def HuffmanEntry.start (e : HuffmanEntry) : Nat := e.code * 2 ^ (30 - e.len)

@[inherit_doc HuffmanEntry.start]
def HuffmanEntry.stop (e : HuffmanEntry) : Nat := (e.code + 1) * 2 ^ (30 - e.len)

theorem HuffmanEntry.start_lt_stop (e : HuffmanEntry) : e.start < e.stop :=
  Nat.mul_lt_mul_of_pos_right (Nat.lt_succ_self _) (Nat.two_pow_pos _)

/-- The interval of `e` ends before the one of `f`. -/
def HuffmanEntry.Before (e f : HuffmanEntry) : Prop := e.stop ≤ f.start

/-- The intervals of two entries do not meet. -/
def HuffmanEntry.Disjoint (e f : HuffmanEntry) : Prop := e.Before f ∨ f.Before e

instance : DecidableRel HuffmanEntry.Before := fun e f => inferInstanceAs (Decidable (e.stop ≤ f.start))

instance : Trans HuffmanEntry.Before HuffmanEntry.Before HuffmanEntry.Before :=
  ⟨fun {_ b _} h1 h2 => Nat.le_trans h1 (Nat.le_trans b.start_lt_stop.le h2)⟩

instance : Std.Symm HuffmanEntry.Disjoint := ⟨fun _ _ h => h.symm⟩

/-- Where each interval ends before the next one, no two of them meet. -/
theorem disjoint_of_chain {l : List HuffmanEntry} (h : l.IsChain HuffmanEntry.Before) :
    ∀ e ∈ l, ∀ f ∈ l, e ≠ f → e.Disjoint f := by
  have hpair : l.Pairwise HuffmanEntry.Disjoint := h.pairwise.imp Or.inl
  intro e he f hf hne
  exact hpair.forall he hf hne

theorem table_chain :
    (http2HuffmanTable.insertionSort fun e f => e.start ≤ f.start).IsChain HuffmanEntry.Before := by
  decide +kernel

theorem table_disjoint {e f : HuffmanEntry} (he : e ∈ http2HuffmanTable) (hf : f ∈ http2HuffmanTable)
    (hne : e ≠ f) : e.Disjoint f := by
  have hmem : ∀ e ∈ http2HuffmanTable, e ∈ http2HuffmanTable.insertionSort fun e f => e.start ≤ f.start :=
    fun e he => (List.perm_insertionSort _ _).mem_iff.mpr he
  exact disjoint_of_chain table_chain e (hmem e he) f (hmem f hf) hne

theorem start_mem_of_prefix {e f : HuffmanEntry} (hle : e.len ≤ f.len) (hf : f.len ≤ 30)
    (hcode : f.code / 2 ^ (f.len - e.len) = e.code) : e.start ≤ f.start ∧ f.start < e.stop := by
  have hpow : 2 ^ (30 - e.len) = 2 ^ (f.len - e.len) * 2 ^ (30 - f.len) := by
    rw [← Nat.pow_add]; congr 1; omega
  have hlow : e.code * 2 ^ (f.len - e.len) ≤ f.code := by rw [← hcode]; exact Nat.div_mul_le_self _ _
  have hhigh : f.code < (e.code + 1) * 2 ^ (f.len - e.len) := by
    rw [← hcode, Nat.mul_comm]; exact Nat.lt_mul_div_succ _ (Nat.two_pow_pos _)
  simp only [HuffmanEntry.start, HuffmanEntry.stop, hpow, ← Nat.mul_assoc]
  exact ⟨Nat.mul_le_mul_right _ hlow, Nat.mul_lt_mul_of_pos_right hhigh (Nat.two_pow_pos _)⟩

theorem codeWord_prefixFree : PrefixFree codeWord := by
  intro s t hpre
  obtain ⟨hs, hss⟩ := findHuffmanCodeForSymbol_mem s
  obtain ⟨ht, hts⟩ := findHuffmanCodeForSymbol_mem t
  have hle : (findHuffmanCodeForSymbol s).len ≤ (findHuffmanCodeForSymbol t).len := by
    simpa [codeWord] using hpre.length_le
  have hcode := ofBits_div_of_prefix hpre
  simp only [codeWord, HuffmanEntry.length_bits, (table_entry hs).2.2.2, (table_entry ht).2.2.2] at hcode
  have hin := start_mem_of_prefix hle (table_entry ht).2.2.1 hcode
  have hne := (findHuffmanCodeForSymbol t).start_lt_stop
  by_cases heq : findHuffmanCodeForSymbol s = findHuffmanCodeForSymbol t
  · rw [← hss, ← hts, heq]
  · rcases table_disjoint hs ht heq with h | h <;> rw [HuffmanEntry.Before] at h <;> omega

/-- The symbol whose code word a bit string is, as the decoder looks it up. -/
def lookupWord (w : List Bool) : Option UInt8 :=
  (findHuffmanCodeForCode (ofBits w) w.length).map HuffmanEntry.symbol

theorem lookupWord_eq_some (w : List Bool) (s : UInt8) : lookupWord w = some s ↔ codeWord s = w := by
  have hfound : ∀ e, findHuffmanCodeForCode (ofBits w) w.length = some e → codeWord e.symbol = w := by
    intro e he
    have hmem := List.mem_of_find?_eq_some he
    have hp := List.find?_some he
    simp only [Bool.and_eq_true, beq_iff_eq] at hp
    obtain ⟨hself, -, -, hbits⟩ := table_entry hmem
    rw [codeWord, hself]
    exact ofBits_inj (by simpa using hp.1) (by rw [hbits, hp.2])
  constructor
  · intro h
    obtain ⟨e, he, rfl⟩ := Option.map_eq_some_iff.mp h
    exact hfound e he
  · rintro rfl
    obtain ⟨hmem, -⟩ := findHuffmanCodeForSymbol_mem s
    have hsome : (findHuffmanCodeForCode (ofBits (codeWord s)) (codeWord s).length).isSome := by
      rw [findHuffmanCodeForCode, List.find?_isSome]
      exact ⟨_, hmem, by simp [codeWord, (table_entry hmem).2.2.2]⟩
    obtain ⟨e, he⟩ := Option.isSome_iff_exists.mp hsome
    rw [lookupWord, he, Option.map_some, codeWord_prefixFree e.symbol s (hfound e he ▸ List.prefix_rfl)]

theorem length_codeWord (s : UInt8) : 5 ≤ (codeWord s).length ∧ (codeWord s).length ≤ 30 := by
  have h := table_entry (findHuffmanCodeForSymbol_mem s).1
  simpa [codeWord] using ⟨h.2.1, h.2.2.1⟩

/-! ## Reading -/

/-- The bits of a byte string. -/
def bitsOf (bytes : Bytes) : List Bool := bytes.flatMap fun b => toBits 8 b.toNat

@[simp] theorem bitsOf_cons (b : UInt8) (bytes : Bytes) : bitsOf (b :: bytes) = toBits 8 b.toNat ++ bitsOf bytes := rfl

@[simp] theorem bitsOf_append (xs ys : Bytes) : bitsOf (xs ++ ys) = bitsOf xs ++ bitsOf ys :=
  List.flatMap_append

@[simp] theorem length_bitsOf (bytes : Bytes) : (bitsOf bytes).length = 8 * bytes.length := by
  induction bytes with
  | nil => rfl
  | cons b bytes ih => simp only [bitsOf_cons, List.length_append, length_toBits, ih, List.length_cons]; omega

/-- The bits that a reader has still to deliver. -/
def BitsReader.bits (r : BitsReader) : List Bool := (toBits 8 r.byte.toNat).take (8 - r.usedBits) ++ bitsOf r.bytes

theorem toBits_shift (b : UInt8) :
    toBits 8 b.toNat = (b &&& 128 != 0) :: (toBits 8 (b <<< 1).toNat).take 7 := by
  have h : ∀ n < 256, toBits 8 (UInt8.ofNat n).toNat =
      (UInt8.ofNat n &&& 128 != 0) :: (toBits 8 (UInt8.ofNat n <<< 1).toNat).take 7 := by decide +kernel
  simpa using h b.toNat b.toNat_lt

example : toBits 8 0x83 = [true, false, false, false, false, false, true, true] := by decide +kernel

theorem BitsReader.takeBit_bits (bytes : Bytes) (byte : UInt8) {usedBits : Nat} (h : usedBits < 8) :
    (toBits 8 byte.toNat).take (8 - usedBits) ++ bitsOf bytes =
      (takeBit bytes byte usedBits h).1 :: (takeBit bytes byte usedBits h).2.bits := by
  obtain ⟨k, hk⟩ : ∃ k, 8 - usedBits = k + 1 := ⟨7 - usedBits, by omega⟩
  have hk' : 8 - (usedBits + 1) = k := by omega
  have htake : ∀ l : List Bool, (l.take 7).take k = l.take k := by
    intro l; rw [List.take_take, Nat.min_eq_left (by omega)]
  rw [toBits_shift, hk, List.take_succ_cons, htake, takeBit, BitsReader.bits, hk', List.cons_append]

theorem BitsReader.getNextBit_eq (r : BitsReader) :
    (r.bits = [] ∧ r.getNextBit = none) ∨ ∃ b r', r.bits = b :: r'.bits ∧ r.getNextBit = some (b, r') := by
  have hu := r.used_le
  unfold getNextBit
  split
  · rename_i h8
    cases hb : r.bytes with
    | nil => exact Or.inl ⟨by simp [BitsReader.bits, h8, hb, bitsOf], rfl⟩
    | cons byte bytes =>
        refine Or.inr ⟨_, _, Eq.trans ?_ (takeBit_bits bytes byte (by omega)), rfl⟩
        rw [BitsReader.bits, h8, hb, bitsOf_cons]
        simp [List.take_of_length_le]
  · exact Or.inr ⟨_, _, takeBit_bits _ _ _, rfl⟩

theorem BitsReader.empty_iff (r : BitsReader) : r.empty = true ↔ r.bits = [] := by
  have hu := r.used_le
  have hlen : r.bits.length = 8 - r.usedBits + 8 * r.bytes.length := by
    rw [BitsReader.bits, List.length_append, List.length_take, length_toBits, length_bitsOf]
    omega
  rw [← List.length_eq_zero_iff, hlen, BitsReader.empty, Bool.and_eq_true, List.isEmpty_iff, beq_iff_eq,
    ← List.length_eq_zero_iff]
  omega

theorem lookupWord_short {w : List Bool} (h : w.length < 5) : lookupWord w = none := by
  rcases hw : lookupWord w with _ | s
  · rfl
  · have := length_codeWord s
    rw [(lookupWord_eq_some w s).mp hw] at this
    omega

theorem concat_code (w : List Bool) (b : Bool) : (2 * ofBits w) ||| b.toNat = ofBits (w ++ [b]) := by
  rw [ofBits_concat]
  cases b
  · simp
  · have := Nat.two_pow_add_eq_or_of_lt (i := 1) (b := 1) (by omega) (ofBits w)
    simpa using this.symm

/-- The code register holds the window, shifted up by one bit. -/
theorem readCode_refines (window : List Bool) (r : BitsReader) (hw : window.length ≤ 30) :
    match readWord lookupWord (30 - window.length) window r.bits with
    | .symbol s rest => ∃ r', readCode r (2 * ofBits window) window.length = .symbol s r' ∧ r'.bits = rest
    | .exhausted w => readCode r (2 * ofBits window) window.length = .exhausted (ofBits w) w.length
    | .notFound => readCode r (2 * ofBits window) window.length = .notFound := by
  induction hn : 30 - window.length generalizing window r with
  | zero =>
      rw [readCode, if_neg (by omega)]; rfl
  | succ n ih =>
      rw [readCode, if_pos (by omega)]
      rcases r.getNextBit_eq with ⟨hbits, hnext⟩ | ⟨b, r', hbits, hnext⟩
      · simp only [hbits, hnext, readWord]
        rw [Nat.shiftRight_eq_div_pow, Nat.pow_one, Nat.mul_div_cancel_left _ (by omega)]
      · have hlen : (window ++ [b]).length = window.length + 1 := by simp
        have hshift : ofBits (window ++ [b]) <<< 1 = 2 * ofBits (window ++ [b]) := by
          rw [Nat.shiftLeft_eq, Nat.pow_one, Nat.mul_comm]
        have hrec := ih (window ++ [b]) r' (by omega) (by omega)
        simp only [hbits, hnext, readWord, concat_code, hshift]
        rw [hlen] at hrec
        by_cases hshort : window.length < 4
        · rw [lookupWord_short (by omega)]
          simp only [if_pos hshort]
          exact hrec
        · simp only [if_neg hshort, lookupWord, hlen]
          rcases findHuffmanCodeForCode (ofBits (window ++ [b])) (window.length + 1) with _ | e
          · exact hrec
          · exact ⟨r', rfl, rfl⟩

/-- No code word is all ones, and neither is the beginning of one that is read. -/
theorem lookupWord_ones (k : Nat) : lookupWord (List.replicate k true) = none := by
  cases hl : lookupWord (List.replicate k true) with
  | none => rfl
  | some s =>
      have hword := (lookupWord_eq_some _ s).mp hl
      have hmem := (findHuffmanCodeForSymbol_mem s).1
      have hlen : (findHuffmanCodeForSymbol s).len = k := by
        rw [← HuffmanEntry.length_bits, ← codeWord, hword, List.length_replicate]
      have hcode : (findHuffmanCodeForSymbol s).code = 2 ^ k - 1 := by
        rw [← (table_entry hmem).2.2.2, ← codeWord, hword, ofBits_replicate_true]
      have hnot := (table_codes _ hmem).2.2
      rw [hlen, hcode] at hnot
      have hpos := Nat.two_pow_pos k
      omega

/-- One turn of the decoder's loop. -/
theorem decodeSymbols_eq (r : BitsReader) :
    decodeSymbols r =
      if r.empty then ([], none)
      else match readCode r 0 0 with
        | .symbol s r' => (s :: (decodeSymbols r').1, (decodeSymbols r').2)
        | .exhausted code codeLen => ([], if code = 2 ^ codeLen - 1 then none else some .noBufferSpace)
        | .notFound => ([], some .invalidArgument) := by
  rw [decodeSymbols]
  split
  · rfl
  · split <;> simp only [*]

/-- One turn of the loop that counts. -/
theorem countSymbols_turn (len : Nat) (r : BitsReader) :
    countSymbols len r =
      if r.empty then len
      else match readCode r 0 0 with
        | .symbol _ r' => countSymbols (len + 1) r'
        | .exhausted code codeLen => if code = 2 ^ codeLen - 1 then len else 0
        | .notFound => 0 := by
  rw [countSymbols]
  split
  · rfl
  · split <;> simp only [*]

/-- The two loops take the same exits: the count is the length of what is decoded, and an error makes it `0`. -/
theorem countSymbols_eq (r : BitsReader) : ∀ len, countSymbols len r =
    match decodeSymbols r with
    | (symbols, none) => len + symbols.length
    | (_, some _) => 0 := by
  induction hn : r.remaining using Nat.strongRecOn generalizing r with
  | ind n ih =>
      intro len
      rw [countSymbols_turn, decodeSymbols_eq]
      split
      · rfl
      · cases hread : readCode r 0 0 with
        | symbol s r' =>
            have hless := remaining_readCode hread
            simp only [ih r'.remaining (by omega) r' rfl]
            rcases decodeSymbols r' with ⟨symbols, _ | ec⟩
            · simp only [List.length_cons, Nat.add_assoc, Nat.add_comm 1]
            · rfl
        | exhausted code codeLen =>
            by_cases hones : code = 2 ^ codeLen - 1
            · simp only [if_pos hones, List.length_nil, Nat.add_zero]
            · simp only [if_neg hones]
        | notFound => rfl

theorem decodedHuffmanLen_eq (b : Bytes) : decodedHuffmanLen b =
    match decodeHuffman b with
    | (symbols, none) => symbols.length
    | (_, some _) => 0 := by
  rw [decodedHuffmanLen, countSymbols_eq, decodeHuffman]
  simp only [Nat.zero_add]

theorem decodeSymbols_padding {r : BitsReader} {k : Nat} (hk : k < 30) (hr : r.bits = List.replicate k true) :
    decodeSymbols r = ([], none) := by
  rw [decodeSymbols_eq]
  by_cases hk0 : k = 0
  · rw [if_pos (r.empty_iff.mpr (by rw [hr, hk0]; rfl))]
  · rw [if_neg (by rw [r.empty_iff, hr]; simpa using hk0)]
    have hread := readCode_refines [] r (by simp)
    have hnocode : ∀ w, w <+: [] ++ List.replicate k true → lookupWord w = none := by
      intro w hw
      rw [List.nil_append, List.prefix_replicate_iff] at hw
      rw [hw.2]
      exact lookupWord_ones _
    rw [hr, readWord_padding (by simp; omega) hnocode] at hread
    simp only [List.nil_append, ofBits_nil, Nat.mul_zero, List.length_nil, List.length_replicate,
      ofBits_replicate_true] at hread
    rw [hread]
    simp

/-- The code words of a text followed by padding are read back as the text. -/
theorem decodeSymbols_codeWords {k : Nat} (hk : k < 30) : ∀ (text : Bytes) (r : BitsReader),
    r.bits = text.flatMap codeWord ++ List.replicate k true → decodeSymbols r = (text, none)
  | [], r, hr => decodeSymbols_padding hk (by simpa using hr)
  | ch :: text, r, hr => by
      have hlen := length_codeWord ch
      rw [List.flatMap_cons, List.append_assoc] at hr
      have hread := readCode_refines [] r (by simp)
      rw [hr, readWord_code codeWord_prefixFree lookupWord_eq_some rfl
        (List.ne_nil_of_length_pos (by omega)) (by simpa using hlen.2)] at hread
      obtain ⟨r', hcode, hbits⟩ := hread
      rw [ofBits_nil, Nat.mul_zero, List.length_nil] at hcode
      have hne : ¬ r.empty = true := by
        rw [r.empty_iff, hr]
        intro h
        have := congrArg List.length h
        simp only [List.length_append, List.length_nil] at this
        omega
      rw [decodeSymbols_eq, if_neg hne, hcode]
      simp only [decodeSymbols_codeWords hk text _ hbits]

/-- How reading one code ends. -/
theorem readCode_cases (r : BitsReader) :
    (∃ s r', readCode r 0 0 = .symbol s r' ∧ r.bits = codeWord s ++ r'.bits) ∨
      (readCode r 0 0 = .exhausted (ofBits r.bits) r.bits.length ∧ r.bits.length < 30) ∨ readCode r 0 0 = .notFound := by
  have hrefines := readCode_refines [] r (by simp)
  cases hw : readWord lookupWord (30 - ([] : List Bool).length) [] r.bits with
  | symbol s rest =>
      rw [hw] at hrefines
      obtain ⟨r', hread, rfl⟩ := hrefines
      obtain ⟨more, hbits, hmore⟩ := readWord_eq_symbol hw
      rw [List.nil_append, lookupWord_eq_some] at hmore
      exact .inl ⟨s, r', hread, by rw [hbits, hmore]⟩
  | exhausted w =>
      rw [hw] at hrefines
      obtain ⟨rfl, hlen⟩ := readWord_eq_exhausted hw
      exact .inr (.inl ⟨hrefines, hlen⟩)
  | notFound =>
      rw [hw] at hrefines
      exact .inr (.inr hrefines)

/-- What is decoded without an error is code words followed by fewer than 30 ones. -/
theorem bits_of_decodeSymbols (r : BitsReader) : ∀ {text : Bytes}, decodeSymbols r = (text, none) →
    ∃ k < 30, r.bits = text.flatMap codeWord ++ List.replicate k true := by
  induction hn : r.remaining using Nat.strongRecOn generalizing r with
  | ind n ih =>
      intro text h
      rw [decodeSymbols_eq] at h
      split at h
      · rename_i hempty
        cases h
        exact ⟨0, by omega, by simpa using r.empty_iff.mp hempty⟩
      · rcases readCode_cases r with ⟨s, r', hread, hbits⟩ | ⟨hread, hlen⟩ | hread
        · have hless := remaining_readCode hread
          rw [hread, Prod.mk.injEq] at h
          obtain ⟨rfl, hnone⟩ := h
          obtain ⟨k, hk, hr'⟩ := ih r'.remaining (by omega) r' rfl (Prod.ext rfl hnone)
          exact ⟨k, hk, by rw [hbits, hr', List.flatMap_cons, List.append_assoc]⟩
        · rw [hread, Prod.mk.injEq] at h
          obtain ⟨rfl, hones⟩ := h
          have hcode : ofBits r.bits = 2 ^ r.bits.length - 1 := by
            by_contra hne
            rw [if_neg hne] at hones
            cases hones
          refine ⟨r.bits.length, hlen, ?_⟩
          rw [List.flatMap_nil, List.nil_append]
          exact ofBits_inj (by simp) (by rw [hcode, ofBits_replicate_true])
        · rw [hread] at h
          cases h

theorem bitsOf_inj {b b' : Bytes} (h : bitsOf b = bitsOf b') : b = b' := by
  induction b generalizing b' with
  | nil =>
      have hlength := congrArg List.length h
      rw [length_bitsOf, length_bitsOf] at hlength
      rw [List.length_nil] at hlength
      exact (List.length_eq_zero_iff.1 (by omega)).symm
  | cons c b ih =>
      cases b' with
      | nil =>
          have hlength := congrArg List.length h
          rw [length_bitsOf, length_bitsOf, List.length_nil, List.length_cons] at hlength
          omega
      | cons c' b' =>
          rw [bitsOf_cons, bitsOf_cons] at h
          obtain ⟨hhead, htail⟩ := List.append_inj h (by rw [length_toBits, length_toBits])
          have hc : c = c' := by
            have hbyte (c : UInt8) : ofBits (toBits 8 c.toNat) = c.toNat := by
              rw [ofBits_toBits, Nat.mod_eq_of_lt c.toNat_lt]
            exact UInt8.toNat_inj.1 (by rw [← hbyte c, hhead, hbyte])
          rw [hc, ih htail]

/-- A byte string is decoded to a text if and only if it is the text's code words and up to 29 ones. -/
theorem decodeHuffman_eq_iff {b text : Bytes} :
    decodeHuffman b = (text, none) ↔ ∃ k < 30, bitsOf b = text.flatMap codeWord ++ List.replicate k true := by
  have hbits : ({ bytes := b } : BitsReader).bits = bitsOf b := by simp [BitsReader.bits]
  constructor
  · intro h
    rw [← hbits]
    exact bits_of_decodeSymbols _ h
  · rintro ⟨k, hk, h⟩
    exact decodeSymbols_codeWords hk text _ (hbits.trans h)

example : bitsOf [0x1f] = codeWord 0x61 ++ List.replicate 3 true := by decide +kernel

end Rad.Hpack
