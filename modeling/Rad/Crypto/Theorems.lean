import Mathlib.Data.List.SplitLengths
import Mathlib.Data.Fintype.Card
import Rad.Crypto.Lemmas.Ctr
import Rad.Crypto.Lemmas.Gcm

/-!
# What the modes of operation compute

A text may be given in pieces, and an object may be used for one message after another. Where the source keeps the place in
the key stream between two calls, the place has to be right for every piece, and it has to be left with the message.
-/

namespace Rad.Crypto

open Lib

theorem Block.byte_allOnes {i : Nat} (hi : i < 16) : Block.byte (BitVec.allOnes 128) i = 0xff := by
  have : ∀ j < 16, Block.byte (BitVec.allOnes 128) j = 0xff := by decide
  exact this i hi

/-! ## `ctr_mode` over pieces of a text -/

namespace CtrMode

/-- The pieces can be encrypted one after the other, behind `n` bytes: a piece begins on a block boundary, or in the middle
of a block and takes up the rest of it, or it is inside of one block and nothing is behind it. -/
def Resumable : Nat → List Bytes → Prop
  | _, [] => True
  | n, c :: cs =>
    if c = [] ∨ n % 16 = 0 ∨ n % 16 = 8 ∧ 8 ≤ c.length then Resumable (n + c.length) cs
    else c.length ≤ 16 - n % 16 ∧ cs.flatten = []

/-- Encryption in pieces gives what one call gives: byte `i` is XORed with byte `i % 16` of the cipher at `iv + i / 16`,
and no byte of the key stream is for two bytes. -/
structure PieceIndependent (cipher : Block → Block) (iv : Block) (chunks : List Bytes) : Prop where
  one_call : process encrypt (ofIv cipher iv) chunks = process encrypt (ofIv cipher iv) [chunks.flatten]
  stream : process encrypt (ofIv cipher iv) chunks = some (xorStream (keystream cipher iv) 0 chunks.flatten)
  positions : ∀ i < chunks.flatten.length, ∀ j < chunks.flatten.length, position iv i = position iv j → i = j

variable {cipher : Block → Block} {iv : Block} {n : Nat} {chunks : List Bytes}

theorem process_empty (m : CtrMode) (h : chunks.flatten = []) : process encrypt m chunks = some [] := by
  induction chunks with
  | nil => rfl
  | cons c cs ih =>
      obtain ⟨rfl, hcs⟩ := List.append_eq_nil_iff.1 (List.flatten_cons ▸ h)
      rw [process_cons (encrypt_nil m), ih hcs]
      rfl

theorem encrypt_on_stream {c : Bytes} (h : c = [] ∨ n % 16 = 0 ∨ n % 16 = 8 ∧ 8 ≤ c.length) :
    (behind cipher iv n).encrypt c = some (xorStream (keystream cipher iv) n c, behind cipher iv (n + c.length)) := by
  rcases h with rfl | hn | ⟨hn, hc⟩
  · rfl
  · exact encrypt_boundary hn
  · exact encrypt_half hn hc

theorem process_of_resumable (h : Resumable n chunks) :
    process encrypt (behind cipher iv n) chunks = some (xorStream (keystream cipher iv) n chunks.flatten) := by
  induction chunks generalizing n with
  | nil => rfl
  | cons c cs ih =>
      rw [Resumable] at h
      split at h
      · rename_i hgood
        rw [process_cons (encrypt_on_stream hgood), ih h, List.flatten_cons, xorStream_append]
        rfl
      · rename_i hbad
        rw [not_or, not_or] at hbad
        rw [process_cons (by rw [encrypt_middle hbad.2.1 hbad.1, if_pos h.1]), process_empty _ h.2, List.flatten_cons, h.2,
          List.append_nil, Option.map_some, List.append_nil]

/-! The other pieces go wrong for a cipher that tells the blocks, or the bytes of a block, apart. -/

/-- The cipher that is zero but at one block. -/
def spot (b : Block) : Block → Block := fun x => if x = b then BitVec.allOnes 128 else 0

/-- The cipher whose byte `i` is `i`. -/
def ruler : Block → Block := fun _ => 0x000102030405060708090a0b0c0d0e0f#128

theorem byte_spot_self (b : Block) {i : Nat} (hi : i < 16) : (spot b b).byte i = 0xff := by
  rw [spot, if_pos rfl, Block.byte_allOnes hi]

theorem byte_spot_other {b x : Block} (hx : x ≠ b) {i : Nat} (hi : i < 16) : (spot b x).byte i = 0 := by
  rw [spot, if_neg hx]
  have : ∀ j < 16, Block.byte 0 j = 0 := by decide
  exact this i hi

theorem byte_ruler (b : Block) {i : Nat} (hi : i < 16) : (ruler b).byte i = UInt8.ofNat i := by
  have : ∀ j < 16, (ruler 0).byte j = UInt8.ofNat j := by decide
  exact this i hi

theorem add_ofNat_ne (iv : Block) (k : Nat) : iv + BitVec.ofNat 128 (k + 1) ≠ iv + BitVec.ofNat 128 k := by
  rw [BitVec.ofNat_add, ← BitVec.add_assoc]
  intro h
  have hnat : (iv + BitVec.ofNat 128 k + 1).toNat = _ := congrArg BitVec.toNat h
  rw [BitVec.toNat_add] at hnat
  have hlt := (iv + BitVec.ofNat 128 k).isLt
  have hone : (1 : BitVec 128).toNat = 1 := rfl
  omega

/-- The object behind a piece inside of a block is not where the next byte of the stream is. -/
theorem resumed_off_stream {size : Nat} (hsize : size ≠ 0) (hle : size ≤ 16 - n % 16)
    (hhalf : ¬(n % 16 = 8 ∧ 8 ≤ size)) :
    ∃ cipher iv, (resumed cipher iv n size).lastBlockSize ≤ 16 →
      (cipher (resumed cipher iv n size).iv).byte (resumed cipher iv n size).lastBlockSize ≠
        keystream cipher iv (n + size) := by
  rcases Nat.lt_trichotomy size (n % 16) with hlt | heq | hgt
  · -- the offset goes back by what it should go forward
    have hsub : sizeSub (n % 16) size = n % 16 - size := by
      unfold sizeSub
      omega
    have hcounter : ∀ cipher iv, (resumed cipher iv n size).iv = iv + BitVec.ofNat 128 (n / 16) := fun cipher iv =>
      if_neg (by rw [hsub]; omega)
    by_cases hend : n % 16 + size = 16
    · refine ⟨spot (0 + BitVec.ofNat 128 (n / 16)), 0, fun _ => ?_⟩
      rw [hcounter, show (resumed _ _ n size).lastBlockSize = n % 16 - size from hsub, byte_spot_self _ (by omega), keystream,
        position, show (n + size) / 16 = n / 16 + 1 by omega, byte_spot_other (add_ofNat_ne 0 _) (by omega)]
      decide
    · refine ⟨ruler, 0, fun _ => ?_⟩
      rw [show (resumed _ _ n size).lastBlockSize = n % 16 - size from hsub, byte_ruler _ (by omega), keystream, position,
        byte_ruler _ (by omega), show (n + size) % 16 = n % 16 + size by omega]
      have hinj : ∀ i < 16, ∀ j < 16, UInt8.ofNat i = UInt8.ofNat j → i = j := by decide
      intro heq
      have hsame := hinj _ (by omega) _ (by omega) heq
      omega
  · -- the offset goes back to zero, and the counter goes on
    have hsub : sizeSub (n % 16) size = 0 := by
      unfold sizeSub
      omega
    refine ⟨spot (0 + BitVec.ofNat 128 (n / 16)), 0, fun _ => ?_⟩
    rw [show (resumed _ _ n size).lastBlockSize = 0 from hsub,
      show (resumed _ 0 n size).iv = 0 + BitVec.ofNat 128 (n / 16 + 1) from if_pos hsub,
      byte_spot_other (add_ofNat_ne 0 _) (by omega), keystream, position, show (n + size) / 16 = n / 16 by omega,
      byte_spot_self _ (by omega)]
    decide
  · -- the offset wraps around zero
    refine ⟨ruler, 0, fun hlast => ?_⟩
    have hlast : sizeSub (n % 16) size ≤ 16 := hlast
    unfold sizeSub at hlast
    omega

theorem resumable_of_stream (h : ∀ cipher iv, process encrypt (behind cipher iv n) chunks =
    some (xorStream (keystream cipher iv) n chunks.flatten)) : Resumable n chunks := by
  induction chunks generalizing n with
  | nil => trivial
  | cons c cs ih =>
      rw [Resumable]
      split
      · rename_i hgood
        refine ih fun cipher iv => ?_
        have hall := h cipher iv
        rw [process_cons (encrypt_on_stream hgood), Option.map_eq_some_iff, List.flatten_cons, xorStream_append] at hall
        obtain ⟨out, hout, heq⟩ := hall
        rw [hout, List.append_cancel_left heq]
      · rename_i hbad
        rw [not_or, not_or] at hbad
        obtain ⟨hc, hn, hhalf⟩ := hbad
        have hpos : c.length ≠ 0 := fun hzero => hc (List.length_eq_zero_iff.1 hzero)
        by_cases hle : c.length ≤ 16 - n % 16
        · refine ⟨hle, ?_⟩
          by_contra hne
          obtain ⟨b, p, hflat⟩ := List.exists_cons_of_ne_nil hne
          obtain ⟨cipher, iv, hoff⟩ := resumed_off_stream hpos hle hhalf
          have hall := h cipher iv
          rw [process_cons (by rw [encrypt_middle hn hc, if_pos hle]), Option.map_eq_some_iff, List.flatten_cons,
            xorStream_append, hflat, xorStream] at hall
          obtain ⟨out, hout, heq⟩ := hall
          obtain rfl := List.append_cancel_left heq
          have hlast : (resumed cipher iv n c.length).lastBlockSize ≠ 16 := by
            show sizeSub (n % 16) c.length ≠ 16
            unfold sizeSub
            omega
          obtain ⟨hin, rest, hfirst⟩ := process_encrypt_first hflat hout hlast
          refine hoff hin ?_
          exact ((UInt8.xor_right_inj b).1 (List.cons.inj hfirst).1).symm
        · -- the byte behind the end of the block is encrypted with the first byte of the same block
          exfalso
          obtain ⟨m, hcall⟩ := @encrypt_past (spot (0 + BitVec.ofNat 128 (n / 16))) 0 n c hn (by omega)
            (Nat.lt_of_not_le hle)
          have hall := h (spot (0 + BitVec.ofNat 128 (n / 16))) 0
          rw [process_cons hcall, Option.map_eq_some_iff, List.flatten_cons] at hall
          obtain ⟨out, -, heq⟩ := hall
          obtain ⟨b, p, hdrop⟩ := List.exists_cons_of_ne_nil (l := c.drop (16 - n % 16))
            (by rw [Ne, List.drop_eq_nil_iff]; exact hle)
          have hsplit : c = c.take (16 - n % 16) ++ b :: p := by rw [← hdrop, List.take_append_drop]
          have hlen : (c.take (16 - n % 16)).length = 16 - n % 16 := by
            rw [List.length_take]
            omega
          rw [hdrop] at heq
          conv_rhs at heq => rw [hsplit]
          rw [List.append_assoc, List.append_assoc, xorStream_append] at heq
          have hbyte := (List.cons.inj (List.append_cancel_left heq)).1
          rw [UInt8.xor_right_inj, hlen, keystream, keystream, position, position,
            Nat.mul_div_cancel_left _ (by omega), byte_spot_self _ (by omega),
            show (n + (16 - n % 16)) / 16 = n / 16 + 1 by omega, byte_spot_other (add_ofNat_ne 0 _) (by omega)] at hbyte
          exact absurd hbyte (by decide)

theorem position_inj {i j : Nat} (hi : i < 2 ^ 64) (hj : j < 2 ^ 64) (h : position iv i = position iv j) : i = j := by
  obtain ⟨hblock, hbyte⟩ := Prod.mk.inj h
  have hsame : BitVec.ofNat 128 (i / 16) = BitVec.ofNat 128 (j / 16) := add_left_cancel hblock
  have hnat := congrArg BitVec.toNat hsame
  rw [BitVec.toNat_ofNat, BitVec.toNat_ofNat, Nat.mod_eq_of_lt (by omega), Nat.mod_eq_of_lt (by omega)] at hnat
  omega

/-- For every cipher and every iv, encryption in pieces is that of the whole text just when the pieces are resumable. The
text is one that a call can take. -/
theorem ctr_piece_independent_iff (hsize : chunks.flatten.length < 2 ^ 64) :
    (∀ cipher iv, PieceIndependent cipher iv chunks) ↔ Resumable 0 chunks := by
  constructor
  · intro h
    refine resumable_of_stream fun cipher iv => ?_
    rw [behind_zero]
    exact (h cipher iv).stream
  · intro h cipher iv
    have hstream := @process_of_resumable cipher iv 0 chunks h
    have hwhole := @process_of_resumable cipher iv 0 [chunks.flatten]
      (by rw [Resumable, if_pos (.inr (.inl rfl))]; trivial)
    rw [behind_zero] at hstream hwhole
    refine ⟨?_, hstream, fun i hi j hj => position_inj (by omega) (by omega)⟩
    rw [hstream, hwhole, List.flatten_singleton]

theorem ctr_piece_independent_halves : PieceIndependent (spot 0) 0 [List.replicate 8 1, List.replicate 24 2] :=
  (ctr_piece_independent_iff (by decide)).2 (by simp [Resumable]) (spot 0) 0

/-- One byte, one byte, one byte: the second call takes the offset back to 0 and goes to the next block. -/
theorem ctr_single_bytes_dependent :
    ¬ (∀ cipher iv (chunks : List Bytes), chunks.flatten.length < 2 ^ 64 → PieceIndependent cipher iv chunks) := by
  intro h
  have hstream := (h (spot 0) 0 [[0], [0], [0]] (by decide)).stream
  exact absurd hstream (by decide)

end CtrMode

/-! ## `gcm_mode` without authentication -/

namespace GcmMode

/-- The text that is encrypted in the pieces `chunks` comes back when the ciphertext is decrypted in pieces of the lengths
`lengths`. -/
def RoundTrips (cipher : Block → Block) (iv : Bytes) (chunks : List Bytes) (lengths : List Nat) : Prop :=
  ∀ uninitialised uninitialised', ∃ ciphertext,
    process (fun m c => some (encryptNoAuth m c)) (ofKeyIv cipher iv uninitialised) chunks = some ciphertext ∧
    process (fun m c => some (decryptNoAuth m c)) (ofKeyIv cipher iv uninitialised') (lengths.splitLengths ciphertext) =
      some chunks.flatten

variable {cipher : Block → Block} {y : Block} {m : GcmMode} {n : Nat}

theorem Behind.process_encryptNoAuth (h : Behind m cipher y n) (chunks : List Bytes) :
    process (fun m c => some (encryptNoAuth m c)) m chunks = some (xorStream (keystream cipher y) n chunks.flatten) := by
  induction chunks generalizing m n with
  | nil => rfl
  | cons c cs ih =>
      have hcall := h.encryptBlocks (c := c)
      rw [process_step, encryptNoAuth, ih hcall.2, hcall.1,
        List.flatten_cons, xorStream_append]
      rfl

theorem decryptNoAuth_whole {c : Bytes} (hc : c.length % 16 = 0) : m.decryptNoAuth c = m.encryptBlocks c :=
  if_pos hc

/-- The last bytes of an incomplete block are XORed once more. -/
theorem Behind.decryptNoAuth_partial (h : Behind m cipher y n) {c : Bytes} (hc : c.length % 16 ≠ 0) :
    (m.decryptNoAuth c).1 =
      (xorStream (keystream cipher y) n c).take (c.length - c.length % 16) ++
        xorStream (cipher (incr (m.encryptBlocks c).2.ivCounter)).byte 0
          ((xorStream (keystream cipher y) n c).drop (c.length - c.length % 16)) := by
  have hcall := h.encryptBlocks (c := c)
  unfold decryptNoAuth
  rw [show Block.length = 16 from rfl, if_neg hc]
  dsimp only
  rw [hcall.1, hcall.2.cipher_eq, length_xorStream]

/-- The first piece of a ciphertext and the rest. -/
theorem splitLengths_xorStream {k : Nat} {lengths : List Nat} {p : Bytes} (stream : Nat → UInt8) (n : Nat)
    (hsum : (k :: lengths).sum = p.length) :
    (k :: lengths).splitLengths (xorStream stream n p) =
      xorStream stream n (p.take k) :: lengths.splitLengths (xorStream stream (n + k) (p.drop k)) := by
  rw [List.sum_cons] at hsum
  have hlen : (p.take k).length = k := by
    rw [List.length_take]
    omega
  have hfirst : (xorStream stream n (p.take k)).length = k := by rw [length_xorStream, hlen]
  have hsplit : xorStream stream n p = xorStream stream n (p.take k) ++ xorStream stream (n + k) (p.drop k) := by
    rw [← List.take_append_drop k p, xorStream_append, List.take_append_drop, hlen]
  rw [List.splitLengths_cons, hsplit, List.take_left' hfirst, List.drop_left' hfirst]

theorem Behind.process_decryptNoAuth_whole (h : Behind m cipher y n) {k : Nat} {lengths : List Nat} {p : Bytes}
    (hk : k % 16 = 0) (hsum : (k :: lengths).sum = p.length) :
    ∃ m', Behind m' cipher y (n + k) ∧
      process (fun m c => some (decryptNoAuth m c)) m ((k :: lengths).splitLengths (xorStream (keystream cipher y) n p)) =
        (process (fun m c => some (decryptNoAuth m c)) m'
          (lengths.splitLengths (xorStream (keystream cipher y) (n + k) (p.drop k)))).map (p.take k ++ ·) := by
  have hlen : (xorStream (keystream cipher y) n (p.take k)).length = k := by
    rw [List.sum_cons] at hsum
    rw [length_xorStream, List.length_take]
    omega
  have hcall := h.encryptBlocks (c := xorStream (keystream cipher y) n (p.take k))
  rw [hlen, xorStream_xorStream] at hcall
  refine ⟨_, hcall.2, ?_⟩
  rw [splitLengths_xorStream _ _ hsum, process_step, decryptNoAuth_whole (by rw [hlen]; exact hk), hcall.1]

theorem Behind.process_decryptNoAuth (h : Behind m cipher y n) {lengths : List Nat}
    (hwhole : ∀ k ∈ lengths, k % 16 = 0) (p : Bytes) (hsum : lengths.sum = p.length) :
    process (fun m c => some (decryptNoAuth m c)) m (lengths.splitLengths (xorStream (keystream cipher y) n p)) =
      some p := by
  induction lengths generalizing m n p with
  | nil =>
      obtain rfl := List.length_eq_zero_iff.1 (hsum.symm.trans List.sum_nil)
      rfl
  | cons k lengths ih =>
      obtain ⟨m', hm', hprocess⟩ := h.process_decryptNoAuth_whole (hwhole k List.mem_cons_self) hsum
      rw [List.sum_cons] at hsum
      rw [hprocess, ih hm' (fun j hj => hwhole j (List.mem_cons_of_mem k hj)) (p.drop k) (by rw [List.length_drop]; omega),
        Option.map_some, List.take_append_drop]

/-- The cipher with all bits set, which changes every byte that it is XORed to. -/
def ones : Block → Block := fun _ => BitVec.allOnes 128

theorem xorStream_ones_cons (b : UInt8) (x : Block) (q rest : Bytes) :
    (xorStream (ones x).byte 0 (b :: q) ++ rest).head? ≠ some b := by
  rw [xorStream, List.cons_append, List.head?_cons, ones, Block.byte_allOnes (by decide)]
  intro h
  have hsame : b ^^^ 0xff = b ^^^ 0 := (Option.some.inj h).trans UInt8.xor_zero.symm
  exact absurd ((UInt8.xor_right_inj b).1 hsame) (by decide)

theorem Behind.whole_of_process (h : Behind m ones y n) {lengths : List Nat} {p : Bytes}
    (hsum : lengths.sum = p.length)
    (hout : process (fun m c => some (decryptNoAuth m c)) m (lengths.splitLengths (xorStream (keystream ones y) n p)) =
      some p) : ∀ k ∈ lengths, k % 16 = 0 := by
  induction lengths generalizing m n p with
  | nil => exact fun k hk => absurd hk List.not_mem_nil
  | cons k lengths ih =>
      have hk : k % 16 = 0 := by
        by_contra hk
        have hle : k ≤ p.length := by
          rw [List.sum_cons] at hsum
          omega
        have hlen : (xorStream (keystream ones y) n (p.take k)).length = k := by
          rw [length_xorStream, List.length_take, Nat.min_eq_left hle]
        have hpartial := h.decryptNoAuth_partial (c := xorStream (keystream ones y) n (p.take k)) (by rwa [hlen])
        rw [hlen, xorStream_xorStream] at hpartial
        rw [splitLengths_xorStream _ _ hsum, process_step, hpartial, Option.map_eq_some_iff] at hout
        obtain ⟨rest, -, heq⟩ := hout
        obtain ⟨b, q, hlast⟩ := List.exists_cons_of_ne_nil (l := (p.take k).drop (k - k % 16)) (by
          rw [Ne, List.drop_eq_nil_iff, List.length_take]
          omega)
        have hsplit : p = (p.take k).take (k - k % 16) ++ (b :: q ++ p.drop k) := by
          rw [← hlast, ← List.append_assoc, List.take_append_drop, List.take_append_drop]
        conv_rhs at heq => rw [hsplit]
        rw [List.append_assoc, hlast] at heq
        have hhead := congrArg List.head? (List.append_cancel_left heq)
        exact xorStream_ones_cons b _ q rest hhead
      obtain ⟨m', hm', hprocess⟩ := h.process_decryptNoAuth_whole hk hsum
      rw [hprocess, Option.map_eq_some_iff] at hout
      obtain ⟨out, hout', heq⟩ := hout
      have hrest : out = p.drop k := List.append_cancel_left (heq.trans (List.take_append_drop k p).symm)
      rw [List.sum_cons] at hsum
      intro j hj
      rcases List.mem_cons.1 hj with rfl | hj
      · exact hk
      · exact ih hm' (by rw [List.length_drop]; omega) (hrest ▸ hout') j hj

/-- For every cipher and every iv, decryption in pieces gives back what was encrypted in any pieces, just when the pieces
of the ciphertext are whole blocks. -/
theorem gcm_no_auth_round_trip_iff {chunks : List Bytes} {lengths : List Nat}
    (hcut : lengths.sum = chunks.flatten.length) :
    (∀ cipher iv, RoundTrips cipher iv chunks lengths) ↔ ∀ k ∈ lengths, k % 16 = 0 := by
  constructor
  · intro h
    obtain ⟨ciphertext, hencrypt, hdecrypt⟩ := h ones [] 0 0
    rw [(behind_ofKeyIv ones [] 0).process_encryptNoAuth] at hencrypt
    obtain rfl := Option.some.inj hencrypt
    exact (behind_ofKeyIv ones [] 0).whole_of_process hcut hdecrypt
  · intro hwhole cipher iv uninitialised uninitialised'
    refine ⟨_, (behind_ofKeyIv cipher iv uninitialised).process_encryptNoAuth chunks, ?_⟩
    exact (behind_ofKeyIv cipher iv uninitialised').process_decryptNoAuth hwhole _ hcut

theorem gcm_no_auth_round_trip_blocks :
    RoundTrips ones (List.replicate 12 0) [List.replicate 5 1, List.replicate 27 2] [16, 16] :=
  (gcm_no_auth_round_trip_iff (by decide)).2 (by decide) ones (List.replicate 12 0)

/-- One byte: the byte is XORed twice on the way back. -/
theorem gcm_no_auth_single_byte_lost :
    ¬ (∀ cipher iv chunks lengths, lengths.sum = chunks.flatten.length → RoundTrips cipher iv chunks lengths) := by
  intro h
  obtain ⟨ciphertext, hencrypt, hdecrypt⟩ := h ones (List.replicate 12 0) [[0]] [1] rfl 0 0
  rw [(behind_ofKeyIv ones _ 0).process_encryptNoAuth] at hencrypt
  obtain rfl := Option.some.inj hencrypt
  exact absurd ((behind_ofKeyIv ones _ 0).whole_of_process rfl hdecrypt) (by decide)

end GcmMode

end Rad.Crypto
