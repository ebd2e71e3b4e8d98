import Rad.Crypto.Block

/-!
# The key stream of `ctr_mode`

Byte `i` of a text belongs to byte `i % 16` of the cipher at `iv + i / 16`. `behind` is the object as it should be behind `n`
bytes; an object that is there stays on the stream over a call on a block boundary, and over one that takes up the second
half of a block.
-/

namespace Rad.Crypto.CtrMode

open Lib

variable {cipher : Block → Block} {iv : Block} {n : Nat} {c : Bytes}

/-- The counter block and the byte in it that byte `i` of a text is for. -/
def position (iv : Block) (i : Nat) : Block × Nat := (iv + BitVec.ofNat 128 (i / 16), i % 16)

def keystream (cipher : Block → Block) (iv : Block) (i : Nat) : UInt8 :=
  (cipher (position iv i).1).byte (position iv i).2

/-- The object behind `n` bytes. -/
def behind (cipher : Block → Block) (iv : Block) (n : Nat) : CtrMode where
  iv := (position iv n).1
  cipher := cipher
  lastBlockSize := n % 16

theorem behind_zero (cipher : Block → Block) (iv : Block) : behind cipher iv 0 = ofIv cipher iv := by
  simp [behind, position, ofIv]

theorem position_add_one (iv : Block) (k : Nat) :
    iv + BitVec.ofNat 128 (k + 1) = aesCtrInc (iv + BitVec.ofNat 128 k) := by
  rw [aesCtrInc_eq, BitVec.ofNat_add, BitVec.add_assoc]
  rfl

/-- A part of a text inside of one block. -/
theorem xorStream_block {o : Nat} (ho : n % 16 = o) (hfit : o + c.length ≤ 16) :
    xorStream (cipher (position iv n).1).byte o c = xorStream (keystream cipher iv) n c := by
  refine xorStream_congr fun i hi => ?_
  unfold keystream position
  dsimp only
  rw [show (n + i) / 16 = n / 16 by omega, show (n + i) % 16 = o + i by omega]

/-! ## Whole blocks -/

theorem encryptWholeBlocks_eq {m : CtrMode} {k : Nat} (hiv : m.iv = iv + BitVec.ofNat 128 k) (count : Nat)
    (hlen : 16 * count ≤ c.length) :
    m.encryptWholeBlocks count c =
      (xorStream (keystream m.cipher iv) (16 * k) (c.take (16 * count)),
        { m with iv := iv + BitVec.ofNat 128 (k + count) }) := by
  induction count generalizing m k c with
  | zero =>
      rw [encryptWholeBlocks, Nat.mul_zero, List.take_zero, Nat.add_zero, ← hiv]
      rfl
  | succ count ih =>
      have hnext : aesCtrInc m.iv = iv + BitVec.ofNat 128 (k + 1) := by rw [hiv, position_add_one]
      have hblock : xorStream (m.cipher m.iv).byte 0 (c.take Block.length) =
          xorStream (keystream m.cipher iv) (16 * k) (c.take 16) := by
        have hpos : (position iv (16 * k)).1 = m.iv := by
          rw [hiv, position, Nat.mul_div_cancel_left k (by omega)]
        rw [← hpos]
        exact xorStream_block (by omega) (by rw [List.length_take, Block.length]; omega)
      have hsplit : c.take (16 * (count + 1)) = c.take 16 ++ (c.drop 16).take (16 * count) := by
        rw [show 16 * (count + 1) = 16 + 16 * count by omega, List.take_add]
      have hrest := ih (m := { m with iv := aesCtrInc m.iv }) (c := c.drop 16) (k := k + 1) hnext
        (by rw [List.length_drop]; omega)
      rw [encryptWholeBlocks, hblock, show Block.length = 16 from rfl, hrest, hsplit, xorStream_append,
        List.length_take, Nat.min_eq_left (by omega)]
      rw [show 16 * (k + 1) = 16 * k + 16 by omega, show k + 1 + count = k + (count + 1) by omega]

/-- What begins on a block boundary stays on the stream, whatever `last_block_size_` is. -/
theorem encryptNewBlocks_eq {m : CtrMode} {k : Nat} (hiv : m.iv = iv + BitVec.ofNat 128 k) :
    (m.encryptNewBlocks c).1 = xorStream (keystream m.cipher iv) (16 * k) c := by
  unfold encryptNewBlocks
  rw [show Block.length = 16 from rfl, encryptWholeBlocks_eq hiv (c.length / 16) (by omega)]
  dsimp only
  split
  · rw [List.take_of_length_le (by omega)]
  · have hcut : c.length - c.length % 16 = 16 * (c.length / 16) := by omega
    have hsplit : c = c.take (16 * (c.length / 16)) ++ c.drop (16 * (c.length / 16)) := (List.take_append_drop _ c).symm
    conv_rhs => rw [hsplit, xorStream_append, List.length_take, Nat.min_eq_left (by omega)]
    have hpos : (position iv (16 * k + 16 * (c.length / 16))).1 = iv + BitVec.ofNat 128 (k + c.length / 16) := by
      rw [position, show (16 * k + 16 * (c.length / 16)) / 16 = k + c.length / 16 by omega]
    rw [hcut, ← hpos, xorStream_block (by omega) (by rw [List.length_drop]; omega)]

theorem encryptNewBlocks_state {m : CtrMode} {k : Nat} (hiv : m.iv = iv + BitVec.ofNat 128 k)
    (hlast : m.lastBlockSize = 0) : (m.encryptNewBlocks c).2 = behind m.cipher iv (16 * k + c.length) := by
  unfold encryptNewBlocks behind position
  rw [show Block.length = 16 from rfl, encryptWholeBlocks_eq hiv (c.length / 16) (by omega)]
  dsimp only
  rw [show (16 * k + c.length) / 16 = k + c.length / 16 by omega]
  split
  · rw [hlast, show (16 * k + c.length) % 16 = 0 by omega]
  · rw [List.length_drop, show c.length - (c.length - c.length % 16) = (16 * k + c.length) % 16 by omega]

/-! ## One call -/

theorem encrypt_nil (m : CtrMode) : m.encrypt [] = some ([], m) := rfl

theorem encrypt_eq {m : CtrMode} (hc : c ≠ []) : m.encrypt c =
    (m.encryptLastBlock c).bind fun r =>
      if r.2.1.isEmpty then some (r.1, r.2.2)
      else some (r.1 ++ (r.2.2.encryptNewBlocks r.2.1).1, (r.2.2.encryptNewBlocks r.2.1).2) := by
  unfold encrypt encryptBlocks
  rw [if_neg (by rwa [List.isEmpty_iff])]
  cases m.encryptLastBlock c with
  | none => rfl
  | some r => rfl

theorem encrypt_boundary (hn : n % 16 = 0) :
    (behind cipher iv n).encrypt c = some (xorStream (keystream cipher iv) n c, behind cipher iv (n + c.length)) := by
  by_cases hc : c = []
  · subst hc
    rfl
  · have hlast : (behind cipher iv n).encryptLastBlock c = some ([], c, behind cipher iv n) := by
      rw [encryptLastBlock, if_pos (show (behind cipher iv n).lastBlockSize = 0 from hn)]
    have hiv : (behind cipher iv n).iv = iv + BitVec.ofNat 128 (n / 16) := rfl
    rw [encrypt_eq hc, hlast, Option.bind_some]
    dsimp only
    rw [if_neg (by rwa [List.isEmpty_iff]), encryptNewBlocks_eq hiv, encryptNewBlocks_state hiv hn,
      show 16 * (n / 16) = n by omega, List.nil_append]
    rfl

/-- The object behind a call that takes `size` bytes of a block of which `n % 16` were taken before. -/
def resumed (cipher : Block → Block) (iv : Block) (n size : Nat) : CtrMode where
  iv := if sizeSub (n % 16) size = 0 then iv + BitVec.ofNat 128 (n / 16 + 1) else iv + BitVec.ofNat 128 (n / 16)
  cipher := cipher
  lastBlockSize := sizeSub (n % 16) size

theorem encryptLastBlock_behind (hn : n % 16 ≠ 0) :
    (behind cipher iv n).encryptLastBlock c =
      some (xorStream (keystream cipher iv) n (c.take (16 - n % 16)), c.drop (16 - n % 16),
        resumed cipher iv n (min (16 - n % 16) c.length)) := by
  have hsize : sizeSub Block.length (n % 16) = 16 - n % 16 := by
    unfold sizeSub Block.length
    omega
  have htake : c.take (min (16 - n % 16) c.length) = c.take (16 - n % 16) := by
    rw [List.take_eq_take_iff]
    omega
  have hdrop : c.drop (min (16 - n % 16) c.length) = c.drop (16 - n % 16) := by
    by_cases hle : c.length ≤ 16 - n % 16
    · rw [Nat.min_eq_right hle, List.drop_length, List.drop_eq_nil_of_le hle]
    · rw [Nat.min_eq_left (Nat.le_of_not_le hle)]
  unfold encryptLastBlock
  rw [if_neg (show ¬(behind cipher iv n).lastBlockSize = 0 from hn), if_neg (by show ¬(n % 16 > 16); omega)]
  show some (xorStream (cipher (position iv n).1).byte (n % 16) (c.take (min (sizeSub Block.length (n % 16)) c.length)),
    c.drop (min (sizeSub Block.length (n % 16)) c.length), _) = _
  rw [hsize, htake, hdrop, xorStream_block rfl (by rw [List.length_take]; omega)]
  congr 3
  simp only [behind, resumed, position, hsize, position_add_one]
  split
  · rfl
  · rfl

/-- A call in the middle of a block: what is left of the block, then new blocks from where the counter is. -/
theorem encrypt_middle (hn : n % 16 ≠ 0) (hc : c ≠ []) :
    (behind cipher iv n).encrypt c =
      if c.length ≤ 16 - n % 16 then some (xorStream (keystream cipher iv) n c, resumed cipher iv n c.length)
      else some
        (xorStream (keystream cipher iv) n (c.take (16 - n % 16)) ++
          ((resumed cipher iv n (16 - n % 16)).encryptNewBlocks (c.drop (16 - n % 16))).1,
        ((resumed cipher iv n (16 - n % 16)).encryptNewBlocks (c.drop (16 - n % 16))).2) := by
  rw [encrypt_eq hc, encryptLastBlock_behind hn, Option.bind_some]
  dsimp only
  by_cases hle : c.length ≤ 16 - n % 16
  · rw [if_pos hle, if_pos (by rwa [List.isEmpty_iff, List.drop_eq_nil_iff]), List.take_of_length_le hle,
      Nat.min_eq_right hle]
  · rw [if_neg hle, if_neg (by rwa [List.isEmpty_iff, List.drop_eq_nil_iff]), Nat.min_eq_left (Nat.le_of_not_le hle)]

/-- The second half of a block: `8 - 8` is the only difference that ends the block. -/
theorem encrypt_half (hn : n % 16 = 8) (hc : 8 ≤ c.length) :
    (behind cipher iv n).encrypt c = some (xorStream (keystream cipher iv) n c, behind cipher iv (n + c.length)) := by
  have hne : c ≠ [] := by
    rintro rfl
    exact absurd hc (by decide)
  have hdone : resumed cipher iv n 8 = behind cipher iv (n + 8) := by
    have hsub : sizeSub (n % 16) 8 = 0 := by
      rw [hn]
      rfl
    unfold resumed behind position
    rw [hsub, if_pos rfl, show (n + 8) / 16 = n / 16 + 1 by omega, show (n + 8) % 16 = 0 by omega]
  have hiv : (behind cipher iv (n + 8)).iv = iv + BitVec.ofNat 128 ((n + 8) / 16) := rfl
  rw [encrypt_middle (by omega) hne, hn]
  split
  · rename_i hle
    have hlen : c.length = 8 := by omega
    rw [hlen, hdone]
  · have hsplit : c = c.take 8 ++ c.drop 8 := (List.take_append_drop 8 c).symm
    rw [show 16 - 8 = 8 from rfl, hdone, encryptNewBlocks_eq hiv, encryptNewBlocks_state hiv (by show (n + 8) % 16 = 0; omega)]
    conv_rhs => rw [hsplit, xorStream_append, List.length_take, Nat.min_eq_left hc]
    rw [show 16 * ((n + 8) / 16) = n + 8 by omega, List.length_drop]
    rw [show n + 8 + (c.length - 8) = n + (c.take 8 ++ c.drop 8).length by rw [List.take_append_drop]; omega]
    rfl

/-- A call that goes past the end of the block from another offset begins the same block again. -/
theorem encrypt_past (hn : n % 16 ≠ 0) (hhalf : n % 16 ≠ 8) (hc : 16 - n % 16 < c.length) :
    ∃ m, (behind cipher iv n).encrypt c =
      some (xorStream (keystream cipher iv) n (c.take (16 - n % 16)) ++
        xorStream (keystream cipher iv) (16 * (n / 16)) (c.drop (16 - n % 16)), m) := by
  have hne : c ≠ [] := by
    rintro rfl
    exact absurd hc (Nat.not_lt_zero _)
  have hiv : (resumed cipher iv n (16 - n % 16)).iv = iv + BitVec.ofNat 128 (n / 16) := by
    have hsub : sizeSub (n % 16) (16 - n % 16) ≠ 0 := by
      unfold sizeSub
      omega
    exact if_neg hsub
  rw [encrypt_middle hn hne, if_neg (by omega), encryptNewBlocks_eq hiv]
  exact ⟨_, rfl⟩

/-! ## Calls one after the other -/

/-- Where a call begins decides the key stream byte of its first byte. -/
theorem encrypt_first {m m' : CtrMode} {b : UInt8} {out : Bytes} (h : m.encrypt (b :: c) = some (out, m'))
    (hlast : m.lastBlockSize ≠ 16) :
    m.lastBlockSize ≤ 16 ∧ ∃ rest, out = (b ^^^ (m.cipher m.iv).byte m.lastBlockSize) :: rest := by
  rw [encrypt_eq (List.cons_ne_nil b c)] at h
  unfold encryptLastBlock at h
  split at h
  · rename_i hzero
    have hiv : m.iv = m.iv + BitVec.ofNat 128 0 := by simp
    rw [Option.bind_some, if_neg (by simp), encryptNewBlocks_eq hiv] at h
    cases h
    refine ⟨by omega, xorStream (keystream m.cipher m.iv) 1 c, ?_⟩
    rw [hzero, List.nil_append, xorStream, keystream, position, Nat.mul_zero, Nat.zero_div, ← hiv, Nat.zero_mod]
  · rename_i hpos
    split at h
    · cases h
    · rename_i hle
      have hle : m.lastBlockSize ≤ 16 := Nat.le_of_not_lt hle
      have hsize : sizeSub Block.length m.lastBlockSize = 16 - m.lastBlockSize := by
        unfold sizeSub Block.length
        omega
      obtain ⟨k, hk⟩ : ∃ k, min (sizeSub Block.length m.lastBlockSize) (b :: c).length = k + 1 :=
        Nat.exists_eq_add_one_of_ne_zero (by rw [hsize, List.length_cons]; omega)
      rw [Option.bind_some] at h
      dsimp only at h
      rw [hk, List.take_succ_cons, xorStream] at h
      refine ⟨hle, ?_⟩
      split at h
      · cases h
        exact ⟨_, rfl⟩
      · cases h
        exact ⟨_, rfl⟩

theorem process_encrypt_first {m : CtrMode} {cs : List Bytes} {b : UInt8} {p out : Bytes} (hflat : cs.flatten = b :: p)
    (hout : process encrypt m cs = some out) (hlast : m.lastBlockSize ≠ 16) :
    m.lastBlockSize ≤ 16 ∧ ∃ rest, out = (b ^^^ (m.cipher m.iv).byte m.lastBlockSize) :: rest := by
  induction cs generalizing out with
  | nil => cases hflat
  | cons c cs ih =>
      cases c with
      | nil =>
          rw [process_cons (encrypt_nil m), Option.map_eq_some_iff] at hout
          obtain ⟨out', hout', rfl⟩ := hout
          exact ih hflat hout'
      | cons d c =>
          obtain ⟨rfl, -⟩ := List.cons.inj hflat
          cases hcall : m.encrypt (d :: c) with
          | none =>
              rw [process, hcall] at hout
              cases hout
          | some r =>
              obtain ⟨first, m'⟩ := r
              rw [process_cons hcall, Option.map_eq_some_iff] at hout
              obtain ⟨out', -, rfl⟩ := hout
              obtain ⟨hle, rest, rfl⟩ := encrypt_first hcall hlast
              exact ⟨hle, rest ++ out', rfl⟩

end Rad.Crypto.CtrMode
