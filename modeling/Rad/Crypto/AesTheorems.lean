import Mathlib.Data.Fin.VecNotation
import Mathlib.Data.Finite.Prod
import Mathlib.Tactic.FinCases
import Rad.Crypto.Aes

/-!
# Decryption undoes encryption

Each step of a round is undone by one step of decryption, and the rounds are undone from the last to the first.
-/

namespace Rad.Crypto

/-! ## Bytes -/

theorem forall_byte {p : UInt8 → Prop} (h : ∀ i : Fin 256, p (UInt8.ofFin i)) (b : UInt8) : p b := h b.toFin

theorem all_sbox : sbox.length = 256 ∧ (sbox.zipIdx.all fun (b, i) => rsboxIth b == UInt8.ofNat i) = true := by
  decide +kernel

theorem rsboxIth_sboxIth (b : UInt8) : rsboxIth (sboxIth b) = b := by
  obtain ⟨hlength, hall⟩ := all_sbox
  have hlen : b.toNat < sbox.length := hlength ▸ b.toNat_lt
  have hmem : (sbox[b.toNat], b.toNat) ∈ sbox.zipIdx := by
    rw [List.mem_zipIdx_iff_getElem?, List.getElem?_eq_getElem hlen]
  have h := List.all_eq_true.1 hall _ hmem
  rw [sboxIth, List.getD_eq_getElem?_getD, List.getElem?_eq_getElem hlen]
  simpa using h

example : sboxIth 0x53 = 0xed ∧ rsboxIth 0xed = 0x53 := by decide +kernel

theorem xtime_table : ∀ b, xtime b = (b <<< 1) ^^^ (if b.toBitVec.msb then 0x1b else 0) ∧ gmul8By2 b = xtime b :=
  forall_byte (by decide +kernel)

theorem xtime_eq (b : UInt8) : xtime b = (b <<< 1) ^^^ if b.toBitVec.msb then 0x1b else 0 := (xtime_table b).1

theorem gmul8By2_eq (b : UInt8) : gmul8By2 b = xtime b := (xtime_table b).2

theorem xtime_xor (a b : UInt8) : xtime (a ^^^ b) = xtime a ^^^ xtime b := by
  rw [xtime_eq, xtime_eq, xtime_eq, UInt8.toBitVec_xor, BitVec.msb_xor, UInt8.shiftLeft_xor]
  cases a.toBitVec.msb with
  | false =>
      rw [Bool.false_xor, if_neg Bool.false_ne_true, UInt8.xor_zero]
      ac_rfl
  | true =>
      cases b.toBitVec.msb with
      | false =>
          rw [Bool.xor_false, if_neg Bool.false_ne_true, UInt8.xor_zero]
          ac_rfl
      | true =>
          simp only [Bool.xor_self, Bool.false_eq_true, if_false, if_true, UInt8.xor_zero]
          rw [show ∀ x y z : UInt8, x ^^^ z ^^^ (y ^^^ z) = x ^^^ y ^^^ (z ^^^ z) from fun x y z => by ac_rfl,
            UInt8.xor_self, UInt8.xor_zero]

section

variable (a : UInt8)

theorem gmul8_14 : gmul8 a 14 = xtime a ^^^ xtime (xtime a) ^^^ xtime (xtime (xtime a)) := by
  have h : gmul8 a 14 = (0 * a) ^^^ (1 * xtime a) ^^^ (1 * xtime (xtime a)) ^^^ (1 * xtime (xtime (xtime a))) ^^^
      (0 * xtime (xtime (xtime (xtime a)))) := rfl
  simpa using h

theorem gmul8_11 : gmul8 a 11 = a ^^^ xtime a ^^^ xtime (xtime (xtime a)) := by
  have h : gmul8 a 11 = (1 * a) ^^^ (1 * xtime a) ^^^ (0 * xtime (xtime a)) ^^^ (1 * xtime (xtime (xtime a))) ^^^
      (0 * xtime (xtime (xtime (xtime a)))) := rfl
  simpa using h

theorem gmul8_13 : gmul8 a 13 = a ^^^ xtime (xtime a) ^^^ xtime (xtime (xtime a)) := by
  have h : gmul8 a 13 = (1 * a) ^^^ (0 * xtime a) ^^^ (1 * xtime (xtime a)) ^^^ (1 * xtime (xtime (xtime a))) ^^^
      (0 * xtime (xtime (xtime (xtime a)))) := rfl
  simpa using h

theorem gmul8_9 : gmul8 a 9 = a ^^^ xtime (xtime (xtime a)) := by
  have h : gmul8 a 9 = (1 * a) ^^^ (0 * xtime a) ^^^ (0 * xtime (xtime a)) ^^^ (1 * xtime (xtime (xtime a))) ^^^
      (0 * xtime (xtime (xtime (xtime a)))) := rfl
  simpa using h

end

/-! ## Columns -/

/-- Each byte of a column is made of the bytes of another one, from the byte at its own place on. -/
def circulant (f0 f1 f2 f3 : UInt8 → UInt8) (a : AesColumn) : AesColumn :=
  ⟨f0 a.b0 ^^^ f1 a.b1 ^^^ f2 a.b2 ^^^ f3 a.b3, f0 a.b1 ^^^ f1 a.b2 ^^^ f2 a.b3 ^^^ f3 a.b0,
    f0 a.b2 ^^^ f1 a.b3 ^^^ f2 a.b0 ^^^ f3 a.b1, f0 a.b3 ^^^ f1 a.b0 ^^^ f2 a.b1 ^^^ f3 a.b2⟩

/-- The composition of two additive maps is the identity where their coefficients multiply to one. -/
theorem circulant_circulant {f0 f1 f2 f3 g0 g1 g2 g3 : UInt8 → UInt8} (hf0 : ∀ a b, f0 (a ^^^ b) = f0 a ^^^ f0 b)
    (hf1 : ∀ a b, f1 (a ^^^ b) = f1 a ^^^ f1 b) (hf2 : ∀ a b, f2 (a ^^^ b) = f2 a ^^^ f2 b)
    (hf3 : ∀ a b, f3 (a ^^^ b) = f3 a ^^^ f3 b) (h0 : ∀ a, f0 (g0 a) ^^^ f1 (g3 a) ^^^ f2 (g2 a) ^^^ f3 (g1 a) = a)
    (h1 : ∀ a, f0 (g1 a) ^^^ f1 (g0 a) ^^^ f2 (g3 a) ^^^ f3 (g2 a) = 0)
    (h2 : ∀ a, f0 (g2 a) ^^^ f1 (g1 a) ^^^ f2 (g0 a) ^^^ f3 (g3 a) = 0)
    (h3 : ∀ a, f0 (g3 a) ^^^ f1 (g2 a) ^^^ f2 (g1 a) ^^^ f3 (g0 a) = 0) (w : AesColumn) :
    circulant f0 f1 f2 f3 (circulant g0 g1 g2 g3 w) = w := by
  -- one byte of the result, with the bytes of the column gathered
  have hbyte : ∀ a b c d, f0 (g0 a ^^^ g1 b ^^^ g2 c ^^^ g3 d) ^^^ f1 (g0 b ^^^ g1 c ^^^ g2 d ^^^ g3 a) ^^^
      f2 (g0 c ^^^ g1 d ^^^ g2 a ^^^ g3 b) ^^^ f3 (g0 d ^^^ g1 a ^^^ g2 b ^^^ g3 c) = a := fun a b c d =>
    calc _ = (f0 (g0 a) ^^^ f1 (g3 a) ^^^ f2 (g2 a) ^^^ f3 (g1 a)) ^^^
            (f0 (g1 b) ^^^ f1 (g0 b) ^^^ f2 (g3 b) ^^^ f3 (g2 b)) ^^^
            (f0 (g2 c) ^^^ f1 (g1 c) ^^^ f2 (g0 c) ^^^ f3 (g3 c)) ^^^
            (f0 (g3 d) ^^^ f1 (g2 d) ^^^ f2 (g1 d) ^^^ f3 (g0 d)) := by
          simp only [hf0, hf1, hf2, hf3]
          ac_rfl
      _ = a := by rw [h0, h1, h2, h3, UInt8.xor_zero, UInt8.xor_zero, UInt8.xor_zero]
  obtain ⟨b0, b1, b2, b3⟩ := w
  simp only [circulant, hbyte]

theorem mixOneCol_eq (a : AesColumn) : mixOneCol a = circulant xtime (fun b => xtime b ^^^ b) id id a := by
  obtain ⟨b0, b1, b2, b3⟩ := a
  simp only [mixOneCol, circulant, AesColumn.map, gmul8By2_eq, id]
  ext1 <;> ac_rfl

theorem invMixOneColumn_eq (a : AesColumn) :
    invMixOneColumn a = circulant (gmul8 · 14) (gmul8 · 11) (gmul8 · 13) (gmul8 · 9) a := by
  obtain ⟨b0, b1, b2, b3⟩ := a
  simp only [invMixOneColumn, circulant]
  ext1 <;> ac_rfl

theorem invMixOneColumn_mixOneCol (a : AesColumn) : invMixOneColumn (mixOneCol a) = a := by
  have hleft : ∀ x y z : UInt8, x ^^^ (y ^^^ z) = y ^^^ (x ^^^ z) := fun x y z => by ac_rfl
  have hcancel : ∀ x y : UInt8, x ^^^ (x ^^^ y) = y := fun x y => by
    rw [← UInt8.xor_assoc, UInt8.xor_self, UInt8.zero_xor]
  rw [mixOneCol_eq, invMixOneColumn_eq]
  refine circulant_circulant ?_ ?_ ?_ ?_ ?_ ?_ ?_ ?_ a
  all_goals
    intros
    simp only [gmul8_14, gmul8_11, gmul8_13, gmul8_9, xtime_xor, id, UInt8.xor_assoc, hleft, UInt8.xor_comm,
      UInt8.xor_self, UInt8.xor_zero, hcancel]

theorem getLsbD_u32 (w : AesColumn) {i : Nat} (hi : i < 8) : w.u32.getLsbD i = w.b0.toBitVec.getLsbD i ∧
    w.u32.getLsbD (8 + i) = w.b1.toBitVec.getLsbD i ∧ w.u32.getLsbD (16 + i) = w.b2.toBitVec.getLsbD i ∧
    w.u32.getLsbD (24 + i) = w.b3.toBitVec.getLsbD i := by
  have h1 : ¬8 + i < 8 := by omega
  have h2 : ¬16 + i < 8 ∧ ¬16 + i - 8 < 8 := by omega
  have h3 : ¬24 + i < 8 ∧ ¬24 + i - 8 < 8 ∧ ¬24 + i - 8 - 8 < 8 := by omega
  have e1 : 8 + i - 8 = i := by omega
  have e2 : 16 + i - 8 - 8 = i := by omega
  have e3 : 24 + i - 8 - 8 - 8 = i := by omega
  refine ⟨?_, ?_, ?_, ?_⟩
  all_goals
    simp only [AesColumn.u32, BitVec.getLsbD_append, hi, h1, h2, h3, e1, e2, e3, if_true, if_false]

theorem getLsbD_mask : ∀ k j : Fin 4, ∀ i : Fin 8,
    (0xff#32 <<< (8 * k.val)).getLsbD (8 * j.val + i.val) = decide (k = j) := by decide

theorem getLsbD_makeU32FromParts (n : Fin 4 → BitVec 32) (j : Fin 4) {i : Nat} (hi : i < 8) :
    (makeU32FromParts (n 0) (n 1) (n 2) (n 3)).getLsbD (8 * j.val + i) = (n j).getLsbD (8 * j.val + i) := by
  have h0 : (0xff#32 <<< (8 * 0)).getLsbD (8 * j.val + i) = decide (0 = j) := getLsbD_mask 0 j ⟨i, hi⟩
  have h1 : (0xff#32 <<< (8 * 1)).getLsbD (8 * j.val + i) = decide (1 = j) := getLsbD_mask 1 j ⟨i, hi⟩
  have h2 : (0xff#32 <<< (8 * 2)).getLsbD (8 * j.val + i) = decide (2 = j) := getLsbD_mask 2 j ⟨i, hi⟩
  have h3 : (0xff#32 <<< (8 * 3)).getLsbD (8 * j.val + i) = decide (3 = j) := getLsbD_mask 3 j ⟨i, hi⟩
  simp only [makeU32FromParts, BitVec.getLsbD_or, BitVec.getLsbD_and, h0, h1, h2, h3]
  fin_cases j <;> simp

/-- The masks of the four bytes put a column together of one byte of each number. -/
theorem ofU32_makeU32FromParts (a b c d : AesColumn) :
    AesColumn.ofU32 (makeU32FromParts a.u32 b.u32 c.u32 d.u32) = ⟨a.b0, b.b1, c.b2, d.b3⟩ := by
  have hbit := fun j i (hi : i < 8) => getLsbD_makeU32FromParts ![a.u32, b.u32, c.u32, d.u32] j hi
  ext1
  all_goals
    refine UInt8.toBitVec_inj.1 (BitVec.eq_of_getLsbD_eq fun i hi => ?_)
    simp only [AesColumn.ofU32, BitVec.getLsbD_extractLsb', hi, decide_true, Bool.true_and]
  · exact (hbit 0 i hi).trans ((congrArg _ (Nat.zero_add i)).trans (getLsbD_u32 a hi).1)
  · exact (hbit 1 i hi).trans (getLsbD_u32 b hi).2.1
  · exact (hbit 2 i hi).trans (getLsbD_u32 c hi).2.2.1
  · exact (hbit 3 i hi).trans (getLsbD_u32 d hi).2.2.2

/-! ## States -/

section

variable (state key : AesState)

theorem shiftRows_eq : shiftRows state =
    ⟨⟨state.c0.b0, state.c1.b1, state.c2.b2, state.c3.b3⟩, ⟨state.c1.b0, state.c2.b1, state.c3.b2, state.c0.b3⟩,
      ⟨state.c2.b0, state.c3.b1, state.c0.b2, state.c1.b3⟩, ⟨state.c3.b0, state.c0.b1, state.c1.b2, state.c2.b3⟩⟩ := by
  simp only [shiftRows, shiftRowsU32s, ofU32_makeU32FromParts]

theorem invShiftRows_shiftRows : invShiftRows (shiftRows state) = state := by
  rw [shiftRows_eq]
  rfl

theorem invSubBytes_subBytes : invSubBytes (subBytes state) = state := by
  simp only [invSubBytes, subBytes, AesState.mapColumns, AesColumn.map, rsboxIth_sboxIth]

theorem invMixColumns_mixColumns : invMixColumns (mixColumns state) = state := by
  simp only [invMixColumns, mixColumns, AesState.mapColumns, invMixOneColumn_mixOneCol]

theorem addRoundKey_addRoundKey : addRoundKey (addRoundKey state key) key = state := by
  simp only [addRoundKey, AesColumn.xor, UInt8.xor_assoc, UInt8.xor_self, UInt8.xor_zero]

end

/-! ## Rounds -/

/-- Steps that undo each other behind `h`, one after the other from the last. -/
theorem foldl_reverse_foldl {α β γ : Type*} {f : α → β → α} {g : γ → β → γ} {h : α → γ}
    (hback : ∀ a b, g (h (f a b)) b = h a) (l : List β) (a : α) : l.reverse.foldl g (h (l.foldl f a)) = h a := by
  induction l generalizing a with
  | nil => rfl
  | cons b l ih =>
      rw [List.reverse_cons, List.foldl_append, List.foldl_cons (l := l), ih, List.foldl_cons, List.foldl_nil, hback]

theorem invCipher_doCipher (consts : AesConstants) (keyMatrices : Nat → AesState) (state : AesState) :
    invCipher consts keyMatrices (doCipher consts keyMatrices state) = state := by
  have hrounds := foldl_reverse_foldl
    (f := fun state i => addRoundKey (mixColumns (shiftRows (subBytes state))) (keyMatrices i))
    (g := fun state i => invMixColumns (addRoundKey (invSubBytes (invShiftRows state)) (keyMatrices i)))
    (h := fun state => shiftRows (subBytes state)) (fun state i => by
      rw [invShiftRows_shiftRows, invSubBytes_subBytes, addRoundKey_addRoundKey, invMixColumns_mixColumns])
    (List.range' 1 (consts.cipherRounds - 1))
  unfold invCipher doCipher
  dsimp only at hrounds ⊢
  rw [addRoundKey_addRoundKey, hrounds, invShiftRows_shiftRows, invSubBytes_subBytes, addRoundKey_addRoundKey]

instance : Finite AesColumn :=
  Finite.of_injective (fun w : AesColumn => (w.b0.toFin, w.b1.toFin, w.b2.toFin, w.b3.toFin)) fun w w' h => by
    simp only [Prod.mk.injEq, UInt8.toFin_inj] at h
    exact AesColumn.ext h.1 h.2.1 h.2.2.1 h.2.2.2

instance : Finite AesState :=
  Finite.of_injective (fun state : AesState => (state.c0, state.c1, state.c2, state.c3)) fun
    | ⟨_, _, _, _⟩, ⟨_, _, _, _⟩, rfl => rfl

/-- A cipher that can be undone on finitely many states undoes its own inverse. -/
theorem doCipher_invCipher (consts : AesConstants) (keyMatrices : Nat → AesState) (state : AesState) :
    doCipher consts keyMatrices (invCipher consts keyMatrices state) = state := by
  have hinj : Function.Injective (doCipher consts keyMatrices) :=
    Function.LeftInverse.injective (invCipher_doCipher consts keyMatrices)
  obtain ⟨state, rfl⟩ := Finite.surjective_of_injective hinj state
  rw [invCipher_doCipher]

/-- Each of the two ciphers undoes the other. -/
theorem aes_decrypt_encrypt (consts : AesConstants) (key : Vector AesColumn consts.keyWords) (state : AesState) :
    aesDecrypt consts (aesExpandKey consts key) (aesEncrypt consts (aesExpandKey consts key) state) = state ∧
      aesEncrypt consts (aesExpandKey consts key) (aesDecrypt consts (aesExpandKey consts key) state) = state :=
  ⟨invCipher_doCipher _ _ state, doCipher_invCipher _ _ state⟩

end Rad.Crypto
