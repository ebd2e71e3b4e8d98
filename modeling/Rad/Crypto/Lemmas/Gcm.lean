import Mathlib.Logic.Function.Iterate
import Rad.Crypto.Block

/-!
# The key stream of `gcm_mode`

The counter is counted up in front of each block, so byte `i` of a text belongs to byte `i % 16` of the cipher at the
counter `i / 16 + 1`. `Behind` says that an object is behind `n` bytes of the stream; calls of any lengths stay on it.
-/

namespace Rad.Crypto.GcmMode

open Lib

variable {m m' : GcmMode} {cipher : Block → Block} {y : Block} {n : Nat} {c : Bytes}

/-- The counter block for block `k` of a text. -/
def counter (y : Block) (k : Nat) : Block := incr^[k] y

def keystream (cipher : Block → Block) (y : Block) (i : Nat) : UInt8 := (cipher (counter y (i / 16 + 1))).byte (i % 16)

theorem counter_add_one (y : Block) (k : Nat) : counter y (k + 1) = incr (counter y k) :=
  Function.iterate_succ_apply' incr k y

/-- A part of a text inside of one block. -/
theorem xorStream_block {o : Nat} (ho : n % 16 = o) (hfit : o + c.length ≤ 16) :
    xorStream (cipher (counter y (n / 16 + 1))).byte o c = xorStream (keystream cipher y) n c := by
  refine xorStream_congr fun i hi => ?_
  unfold keystream
  rw [show (n + i) / 16 = n / 16 by omega, show (n + i) % 16 = o + i by omega]

/-! ## Whole blocks -/

theorem encryptWholeBlocks_eq {k : Nat} (hcounter : m.ivCounter = counter y k) (count : Nat)
    (hlen : 16 * count ≤ c.length) :
    m.encryptWholeBlocks count c =
      (xorStream (keystream m.cipher y) (16 * k) (c.take (16 * count)),
        { m with ivCounter := counter y (k + count) }) := by
  induction count generalizing m k c with
  | zero =>
      rw [encryptWholeBlocks, Nat.mul_zero, List.take_zero, Nat.add_zero, ← hcounter]
      rfl
  | succ count ih =>
      have hnext : incr m.ivCounter = counter y (k + 1) := by rw [hcounter, counter_add_one]
      have hblock : xorStream (m.cipher (incr m.ivCounter)).byte 0 (c.take Block.length) =
          xorStream (keystream m.cipher y) (16 * k) (c.take 16) := by
        have hpos : counter y (16 * k / 16 + 1) = incr m.ivCounter := by
          rw [hnext, Nat.mul_div_cancel_left k (by omega)]
        rw [← hpos]
        exact xorStream_block (by omega) (by rw [List.length_take, Block.length]; omega)
      have hsplit : c.take (16 * (count + 1)) = c.take 16 ++ (c.drop 16).take (16 * count) := by
        rw [show 16 * (count + 1) = 16 + 16 * count by omega, List.take_add]
      have hrest := ih (m := { m with ivCounter := incr m.ivCounter }) (c := c.drop 16) (k := k + 1) hnext
        (by rw [List.length_drop]; omega)
      rw [encryptWholeBlocks, hblock, show Block.length = 16 from rfl, hrest, hsplit, xorStream_append,
        List.length_take, Nat.min_eq_left (by omega)]
      rw [show 16 * (k + 1) = 16 * k + 16 by omega, show k + 1 + count = k + (count + 1) by omega]

/-! ## On the stream -/

/-- The object is behind `n` bytes. -/
structure Behind (m : GcmMode) (cipher : Block → Block) (y : Block) (n : Nat) : Prop where
  cipher_eq : m.cipher = cipher
  counter_eq : m.ivCounter = counter y ((n + 15) / 16)
  size_eq : m.remainingIvSize = (16 - n % 16) % 16
  saved_eq : n % 16 ≠ 0 → m.remainingIvEncrypted = cipher (counter y (n / 16 + 1))

theorem Behind.encryptNewBlocks (h : Behind m cipher y n) (hn : n % 16 = 0) :
    (m.encryptNewBlocks c).1 = xorStream (keystream cipher y) n c ∧
      Behind (m.encryptNewBlocks c).2 cipher y (n + c.length) := by
  have hcounter : m.ivCounter = counter y (n / 16) := by
    rw [h.counter_eq]
    congr 1
    omega
  have hsize : m.remainingIvSize = 0 := by
    have := h.size_eq
    omega
  unfold GcmMode.encryptNewBlocks
  rw [show Block.length = 16 from rfl, encryptWholeBlocks_eq hcounter (c.length / 16) (by omega), h.cipher_eq,
    show 16 * (n / 16) = n by omega]
  dsimp only
  split
  · rename_i hu
    refine ⟨by rw [List.take_of_length_le (by omega)], rfl, ?_, ?_, fun hne => absurd hne (by omega)⟩
    · dsimp only
      congr 1
      omega
    · dsimp only
      omega
  · rename_i hu
    have hcut : c.length - c.length % 16 = 16 * (c.length / 16) := by omega
    have hsplit : c = c.take (16 * (c.length / 16)) ++ c.drop (16 * (c.length / 16)) := (List.take_append_drop _ c).symm
    have hlast : counter y (n / 16 + c.length / 16 + 1) = counter y ((n + 16 * (c.length / 16)) / 16 + 1) := by
      congr 2
      omega
    rw [hcut, ← counter_add_one]
    refine ⟨?_, rfl, ?_, ?_, fun _ => ?_⟩
    · conv_rhs => rw [hsplit, xorStream_append, List.length_take, Nat.min_eq_left (by omega)]
      rw [hlast, xorStream_block (by omega) (by rw [List.length_drop]; omega)]
    · dsimp only
      congr 1
      omega
    · dsimp only
      omega
    · dsimp only
      congr 2
      omega

theorem Behind.encryptBlocks (h : Behind m cipher y n) :
    (m.encryptBlocks c).1 = xorStream (keystream cipher y) n c ∧
      Behind (m.encryptBlocks c).2 cipher y (n + c.length) := by
  have hsize := h.size_eq
  by_cases hn : n % 16 = 0
  · have hfirst : m.encryptWithRemainingIvCounter c = ([], m) := by
      rw [encryptWithRemainingIvCounter, if_pos (by omega)]
    unfold GcmMode.encryptBlocks
    rw [hfirst]
    dsimp only
    by_cases hc : c = []
    · subst hc
      exact ⟨rfl, h⟩
    · rw [if_neg (by rwa [List.length_nil, List.drop_zero, List.isEmpty_iff]), List.length_nil, List.drop_zero,
        List.nil_append]
      exact h.encryptNewBlocks hn
  · have hfirst : m.encryptWithRemainingIvCounter c =
        (xorStream (keystream cipher y) n (c.take (16 - n % 16)),
          { m with remainingIvSize := 16 - n % 16 - min (16 - n % 16) c.length }) := by
      have htake : c.take (min (16 - n % 16) c.length) = c.take (16 - n % 16) := by
        rw [List.take_eq_take_iff]
        omega
      rw [encryptWithRemainingIvCounter, if_neg (by omega), h.saved_eq hn,
        show m.remainingIvSize = 16 - n % 16 by omega]
      dsimp only
      rw [htake, xorStream_block (by rw [Block.length]; omega) (by rw [List.length_take, Block.length]; omega)]
    unfold GcmMode.encryptBlocks
    rw [hfirst]
    dsimp only
    rw [length_xorStream, List.length_take]
    by_cases hle : c.length ≤ 16 - n % 16
    · rw [if_pos (by rw [List.isEmpty_iff, List.drop_eq_nil_iff]; omega), List.take_of_length_le hle, Nat.min_eq_right hle]
      refine ⟨rfl, h.cipher_eq, ?_, ?_, fun _ => ?_⟩
      · exact h.counter_eq.trans (by congr 1; omega)
      · show 16 - n % 16 - c.length = _
        omega
      · exact (h.saved_eq hn).trans (by congr 3; omega)
    · rw [Nat.min_eq_left (Nat.le_of_not_le hle), if_neg (by rwa [List.isEmpty_iff, List.drop_eq_nil_iff]),
        Nat.sub_self]
      have hnew : Behind { m with remainingIvSize := 0 } cipher y (n + (16 - n % 16)) := by
        refine ⟨h.cipher_eq, h.counter_eq.trans (by congr 1; omega), ?_, fun hne => absurd hne (by omega)⟩
        show 0 = _
        omega
      have hrest := hnew.encryptNewBlocks (c := c.drop (16 - n % 16)) (by omega)
      have hsplit : c = c.take (16 - n % 16) ++ c.drop (16 - n % 16) := (List.take_append_drop _ c).symm
      refine ⟨?_, ?_⟩
      · rw [hrest.1]
        conv_rhs => rw [hsplit, xorStream_append, List.length_take, Nat.min_eq_left (Nat.le_of_not_le hle)]
      · have hdone := hrest.2
        rwa [List.length_drop, show n + (16 - n % 16) + (c.length - (16 - n % 16)) = n + c.length by omega] at hdone

theorem behind_ofKeyIv (cipher : Block → Block) (iv : Bytes) (uninitialised : Block) :
    Behind (ofKeyIv cipher iv uninitialised) cipher (firstCounter (cipher 0) iv) 0 :=
  ⟨rfl, rfl, rfl, fun hne => absurd rfl hne⟩

end Rad.Crypto.GcmMode
