import Rad.Crypto.Padding

/-!
# What decryption checks of the padding
-/

namespace Rad.Crypto

/-! ## What is claimed of the modes -/

/-- A decryption gives the text, without an error. -/
def Decrypted.Restores (r : Decrypted) (plaintext : Bytes) : Prop :=
  r.ec = none ∧ r.inputOutput.take r.size = plaintext

/-- A mode on blocks of `n` bytes. -/
inductive BlockMode (n : Nat) where
  | cbc (mode : CbcMode n)
  | ecb (mode : EcbMode n)

namespace BlockMode

variable {n : Nat}

def encrypt (mode : BlockMode n) (ec : Option PaddingErrorCode) (inputOutput paddingBuffer : Bytes) : Encrypted :=
  match mode with
  | .cbc mode => (mode.encrypt ec inputOutput paddingBuffer).1
  | .ecb mode => (mode.encrypt ec inputOutput paddingBuffer).1

def encryptInto (mode : BlockMode n) (plaintext ciphertext : Bytes) : Bytes :=
  match mode with
  | .cbc mode => (mode.encryptInto plaintext ciphertext).1
  | .ecb mode => (mode.encryptInto plaintext ciphertext).1

def decrypt (mode : BlockMode n) (ec : Option PaddingErrorCode) (inputOutput : Bytes) : Decrypted :=
  match mode with
  | .cbc mode => (mode.decrypt ec inputOutput).1
  | .ecb mode => (mode.decrypt ec inputOutput).1

/-- The data is `size` bytes and then from 1 to `n` bytes that all are their number. -/
def IsPadded (n : Nat) (data : Bytes) (size : Nat) : Prop :=
  ∃ b : UInt8, 1 ≤ b.toNat ∧ b.toNat ≤ n ∧ size + b.toNat = data.length ∧
    data = data.take size ++ List.replicate b.toNat b

/-- What is decrypted without an error is padded. -/
def PaddingChecked (mode : BlockMode n) (ec : Option PaddingErrorCode) (ciphertext : Bytes) : Prop :=
  (mode.decrypt ec ciphertext).ec = none →
    IsPadded n (mode.decrypt ec ciphertext).inputOutput (mode.decrypt ec ciphertext).size

/-- The text is decrypted to itself, whether it was encrypted in its own buffer, with the padding in another one, or into
a container. -/
structure RoundTrips (mode : BlockMode n) (ec : Option PaddingErrorCode) (plaintext : Bytes) : Prop where
  inPlace : ∀ ec' paddingBuffer, Pkcs7.getRequiredPaddingSize n plaintext.length ≤ paddingBuffer.length →
    let r := mode.encrypt ec' plaintext paddingBuffer
    (mode.decrypt ec (r.inputOutput ++ r.paddingBuffer.take r.size)).Restores plaintext
  appended : ∀ ciphertext,
    (mode.decrypt ec ((mode.encryptInto plaintext ciphertext).drop ciphertext.length)).Restores plaintext

/-- The error code is not set when the mode starts. -/
def StartsClear (mode : BlockMode n) (ec : Option PaddingErrorCode) : Prop :=
  match mode with
  | .cbc _ => True
  | .ecb _ => ec = none

/-- The last block of a ciphertext as it was before its encryption. -/
def lastBlock (mode : BlockMode n) (ciphertext : Bytes) : Vector UInt8 n :=
  let last := blockOf n (ciphertext.drop (ciphertext.length - n))
  match mode with
  | .cbc mode =>
    -- the block before the last one, and before the first one the iv
    let before := blockOf n ((mode.iv.toList ++ ciphertext).drop (ciphertext.length - n))
    xorBlocks (mode.cipher.decrypt last) before
  | .ecb mode => mode.cipher.decrypt last

end BlockMode

/-- The last byte of a block is no size of a padding, or it is 1 at least and that many bytes at the end of the block are
equal to it. -/
def WellFilled {n : Nat} (block : Vector UInt8 n) : Prop :=
  ∃ b, block.toList.getLast? = some b ∧
    (n < b.toNat ∨ (1 ≤ b.toNat ∧ block.toList.drop (n - b.toNat) = List.replicate b.toNat b))

/-! ## Blocks -/

section

variable {n : Nat}

@[simp] theorem blockOf_toList (block : Vector UInt8 n) : blockOf n block.toList = block := by
  ext i hi
  simp [blockOf]

theorem toList_blockOf {bytes : Bytes} (h : bytes.length = n) : (blockOf n bytes).toList = bytes := by
  apply List.ext_getElem
  · rw [Vector.length_toList, h]
  · intro i hi hi'
    simp [blockOf, List.getD_eq_getElem?_getD, List.getElem?_eq_getElem hi']

theorem blockOf_append {a b : Bytes} (h : a.length = n) : blockOf n (a ++ b) = blockOf n a := by
  ext i hi
  simp [blockOf, List.getElem?_append_left (by omega : i < a.length)]

theorem xorBlocks_xorBlocks (a b : Vector UInt8 n) : xorBlocks (xorBlocks a b) b = a := by
  ext i hi
  simp [xorBlocks, UInt8.xor_assoc]

end

/-! ## Sizes of paddings -/

theorem getRequiredPaddingSize_eq (n size : Nat) :
    Pkcs7.getRequiredPaddingSize n size = n - size % n := by
  unfold Pkcs7.getRequiredPaddingSize
  split
  · rename_i h
    rw [Nat.mod_eq_of_lt h]
  · split
    · rename_i h
      rw [h, Nat.mod_self, Nat.sub_zero]
    · dsimp only
      split
      · rename_i h
        rw [h, Nat.sub_zero]
      · rfl

/-! ## What a mode decrypts -/

section

variable {σ : Type} {n : Nat} {encryptBlock decryptBlock : σ → Bytes → Bytes × σ} {mode : σ} {c p pb : Bytes}
  {ec : Option PaddingErrorCode}

/-- The data, the size and the error of a decryption of whole blocks. -/
theorem decryptPadded_eq (hc : c ≠ []) (hwhole : c.length % n = 0) :
    (decryptPadded n decryptBlock mode ec c).1 =
      let data := (Lib.runBlocks n decryptBlock (c.length / n) mode c).1
      if (data.getLastD 0).toNat > n then ⟨data, 0, some .invalidPadding⟩
      else if ec.isSome then ⟨data, 0, ec⟩
      else ⟨data, data.length - (data.getLastD 0).toNat, ec⟩ := by
  unfold decryptPadded
  rw [if_neg hc, if_neg (by simpa using hwhole)]
  dsimp only [Pkcs7.getExistingPaddingSize]
  split
  · rfl
  · dsimp only
    split <;> rfl

/-- Two buffers hold together what a run over the padded text makes. -/
theorem encryptPadded_eq (hn : 0 < n) (hlen : ∀ s b, b.length = n → (encryptBlock s b).1.length = n) (hp : p ≠ [])
    (hpb : n - p.length % n ≤ pb.length) :
    let r := (encryptPadded n encryptBlock mode ec p pb).1
    let filling := List.replicate (n - p.length % n) (UInt8.ofNat (n - p.length % n))
    r.inputOutput ++ r.paddingBuffer.take r.size =
      (Lib.runBlocks n encryptBlock (p.length / n + 1) mode (p ++ filling)).1 ∧ r.ec = ec := by
  have hmod := Nat.mod_lt p.length hn
  have hdiv := Nat.div_add_mod p.length n
  have hdiv' : p.length / n * n = n * (p.length / n) := Nat.mul_comm _ _
  have haligned : p.length - p.length % n = p.length / n * n := by omega
  have hcount : (p.length - p.length % n) / n = p.length / n := by
    rw [haligned, Nat.mul_div_cancel _ hn]
  have hinLast : p.length - (p.length - p.length % n) = p.length % n := by omega
  unfold encryptPadded
  rw [if_neg hp]
  simp only [getRequiredPaddingSize_eq]
  rw [if_neg (by omega)]
  simp only [Pkcs7.addPadding, getRequiredPaddingSize_eq, hcount, hinLast]
  have hdrop : p.length - (n - (n - p.length % n)) = p.length - p.length % n := by omega
  have hfront : (p.take (p.length - p.length % n)).length = p.length / n * n := by
    rw [List.length_take]
    omega
  have hsplit : p ++ List.replicate (n - p.length % n) (UInt8.ofNat (n - p.length % n)) =
      p.take (p.length - p.length % n) ++ (p.drop (p.length - p.length % n) ++
        List.replicate (n - p.length % n) (UInt8.ofNat (n - p.length % n))) := by
    rw [← List.append_assoc, List.take_append_drop]
  have hlast : (p.drop (p.length - p.length % n) ++
      List.replicate (n - p.length % n) (UInt8.ofNat (n - p.length % n))).length = n := by
    rw [List.length_append, List.length_drop, List.length_replicate]
    omega
  rw [hdrop, hsplit, Lib.runBlocks_append hfront 1]
  generalize Lib.runBlocks n encryptBlock (p.length / n) mode _ = front at *
  generalize p.drop (p.length - p.length % n) ++ _ = last at *
  have hone : ∀ s, (Lib.runBlocks n encryptBlock 1 s last).1 = (encryptBlock s last).1 := fun s => by
    rw [Lib.runBlocks_succ, List.take_of_length_le hlast.le, List.drop_of_length_le hlast.le]
    simp
  have hsize : ((encryptBlock front.2 last).1.drop (p.length % n)).length = n - p.length % n := by
    rw [List.length_drop, hlen _ _ hlast]
  refine ⟨?_, trivial⟩
  rw [hone, List.take_left' hsize, List.append_assoc, List.take_append_drop]

/-- The container gets what a run over the padded text makes. -/
theorem encryptAppended_eq (hn : 0 < n) (hsmall : n - p.length % n < 256) :
    (encryptAppended n encryptBlock mode p c).1 = c ++
      (Lib.runBlocks n encryptBlock (p.length / n + 1) mode
        (p ++ List.replicate (n - p.length % n) (UInt8.ofNat (n - p.length % n)))).1 := by
  have hmod := Nat.mod_lt p.length hn
  have hdiv := Nat.div_add_mod p.length n
  have hcount : (p.length + (n - p.length % n)) / n = p.length / n + 1 := by
    rw [show p.length + (n - p.length % n) = n * (p.length / n + 1) by rw [Nat.mul_succ]; omega,
      Nat.mul_div_cancel_left _ hn]
  have hvalue : (UInt8.ofNat (n - p.length % n)).toNat = n - p.length % n := by
    rw [UInt8.toNat_ofNat', Nat.mod_eq_of_lt hsmall]
  have hput : Pkcs7.putPadding (p ++ List.replicate (n - p.length % n) 0) p.length =
      p ++ List.replicate (n - p.length % n) (UInt8.ofNat (n - p.length % n)) := by
    simp [Pkcs7.putPadding, hvalue]
  unfold encryptAppended
  simp only [getRequiredPaddingSize_eq, hput]
  rw [List.length_append, List.length_replicate, hcount]

/-- A text with a filling of `m` bytes is decrypted without the bytes that the last one of them counts. -/
theorem decryptPadded_encrypted (hn : 0 < n) (hlen : ∀ s b, b.length = n → (encryptBlock s b).1.length = n)
    (hback : ∀ s b, b.length = n → decryptBlock s (encryptBlock s b).1 = (b, (encryptBlock s b).2)) :
    let m := n - p.length % n
    let text := p ++ List.replicate m (UInt8.ofNat m)
    (decryptPadded n decryptBlock mode ec (Lib.runBlocks n encryptBlock (p.length / n + 1) mode text).1).1 =
      if ec.isSome then ⟨text, 0, ec⟩ else ⟨text, text.length - m % 256, ec⟩ := by
  intro m text
  have hmod := Nat.mod_lt p.length hn
  have hdiv := Nat.div_add_mod p.length n
  have hpos : 0 < m := by omega
  have htext : text.length = n * (p.length / n + 1) := by
    rw [List.length_append, List.length_replicate, Nat.mul_succ]
    omega
  have hblocks : (p.length / n + 1) * n ≤ text.length := by rw [htext, Nat.mul_comm]
  have hsame : (Lib.runBlocks n encryptBlock (p.length / n + 1) mode text).1.length = n * (p.length / n + 1) := by
    rw [Lib.length_runBlocks hlen hblocks, htext]
  have hne : (Lib.runBlocks n encryptBlock (p.length / n + 1) mode text).1 ≠ [] := by
    intro h
    rw [h, Nat.mul_succ] at hsame
    simp only [List.length_nil] at hsame
    omega
  have hlast : (text.getLastD 0).toNat = m % 256 := by
    obtain ⟨k, hk⟩ := Nat.exists_eq_succ_of_ne_zero hpos.ne'
    simp [text, hk, List.replicate_succ', ← List.append_assoc, List.getLastD_eq_getLast?]
  rw [decryptPadded_eq hne (by rw [hsame, Nat.mul_mod_right])]
  rw [hsame, Nat.mul_div_cancel_left _ hn, Lib.runBlocks_back hlen hback hblocks]
  dsimp only
  rw [hlast, if_neg]
  have := Nat.mod_le m 256
  omega

/-- Decryption takes off what the last byte counts, whatever it is. -/
theorem isPadded_iff {front data : Bytes} {last : Vector UInt8 n} (hn : 0 < n) (hdata : data = front ++ last.toList) :
    ((data.getLastD 0).toNat ≤ n → BlockMode.IsPadded n data (data.length - (data.getLastD 0).toNat)) ↔
      WellFilled last := by
  have hlen : data.length = front.length + n := by rw [hdata, List.length_append, Vector.length_toList]
  obtain ⟨b, hb⟩ : ∃ b, last.toList.getLast? = some b := by
    rw [← Option.isSome_iff_exists, List.getLast?_isSome, ← List.length_pos_iff, Vector.length_toList]
    exact hn
  have hD : data.getLastD 0 = b := by
    rw [hdata, List.getLastD_eq_getLast?, List.getLast?_append, hb]
    rfl
  rw [hD]
  have hdrop : b.toNat ≤ n → data.drop (data.length - b.toNat) = last.toList.drop (n - b.toNat) := fun hle => by
    rw [hlen, hdata, show front.length + n - b.toNat = front.length + (n - b.toNat) by omega, List.drop_append]
    simp
  constructor
  · intro h
    refine ⟨b, hb, ?_⟩
    by_cases hle : b.toNat ≤ n
    · obtain ⟨k, hpos, hkn, hsize, hsplit⟩ := h hle
      have hk : k.toNat = b.toNat := by omega
      have hkb : k = b := UInt8.toNat_inj.1 hk
      subst hkb
      refine .inr ⟨hpos, ?_⟩
      have htail := congrArg (List.drop (data.length - k.toNat)) hsplit
      rwa [List.drop_left' (by rw [List.length_take]; omega), hdrop hle] at htail
    · exact .inl (by omega)
  · rintro ⟨b', hb', hcase⟩ hle
    cases hb.symm.trans hb'
    rcases hcase with hcase | ⟨hpos, hfill⟩
    · omega
    · refine ⟨b, hpos, hle, by omega, ?_⟩
      rw [← hfill, ← hdrop hle, List.take_append_drop]

theorem decryptPadded_isPadded (ec : Option PaddingErrorCode) {front : Bytes} {last : Vector UInt8 n} (hn : 0 < n)
    (hc : c ≠ []) (hwhole : c.length % n = 0)
    (hdata : (Lib.runBlocks n decryptBlock (c.length / n) mode c).1 = front ++ last.toList) :
    ((decryptPadded n decryptBlock mode ec c).1.ec = none →
        BlockMode.IsPadded n (decryptPadded n decryptBlock mode ec c).1.inputOutput
          (decryptPadded n decryptBlock mode ec c).1.size) ↔ (ec = none → WellFilled last) := by
  rw [decryptPadded_eq hc hwhole, ← isPadded_iff hn hdata]
  dsimp only
  split
  · rename_i hlarge
    exact iff_of_true (fun h => by cases h) fun _ h => by omega
  · rename_i hsmall
    split
    · rename_i hec
      have hset : ec ≠ none := Option.isSome_iff_ne_none.1 hec
      exact iff_of_true (fun h => absurd h hset) fun h => absurd h hset
    · rename_i hec
      have hnone : ec = none := by simpa using hec
      exact ⟨fun h _ _ => h hnone, fun h _ => h hnone (by omega)⟩

end

/-! ## The modes -/

section

variable {n : Nat}

@[simp] theorem CbcMode.length_encryptBlock (mode : CbcMode n) (block : Bytes) :
    (mode.encryptBlock block).1.length = n := Vector.length_toList

@[simp] theorem EcbMode.length_encryptBlock (mode : EcbMode n) (block : Bytes) :
    (mode.encryptBlock block).1.length = n := Vector.length_toList

theorem CbcMode.decryptBlock_encryptBlock (mode : CbcMode n) {block : Bytes} (h : block.length = n) :
    mode.decryptBlock (mode.encryptBlock block).1 = (block, (mode.encryptBlock block).2) := by
  simp only [decryptBlock, encryptBlock, xorIvPlaintext, blockOf_toList, mode.cipher.decrypt_encrypt,
    xorBlocks_xorBlocks, toList_blockOf h]

theorem EcbMode.decryptBlock_encryptBlock (mode : EcbMode n) {block : Bytes} (h : block.length = n) :
    mode.decryptBlock (mode.encryptBlock block).1 = (block, (mode.encryptBlock block).2) := by
  simp only [decryptBlock, encryptBlock, blockOf_toList, mode.cipher.decrypt_encrypt, toList_blockOf h]

theorem EcbMode.runBlocks_decryptBlock {k : Nat} {mode : EcbMode n} {c : Bytes} :
    (Lib.runBlocks n decryptBlock k mode c).2 = mode := by
  induction k generalizing c with
  | zero => rfl
  | succ k ih => exact ih

/-- After a decryption the last block that was read is the iv. -/
theorem CbcMode.runBlocks_decryptBlock {k : Nat} {mode : CbcMode n} {c : Bytes} (h : c.length = k * n) :
    (Lib.runBlocks n decryptBlock k mode c).2 = mode.storeIv (blockOf n ((mode.iv.toList ++ c).drop (k * n))) := by
  induction k generalizing mode c with
  | zero =>
      rw [Nat.zero_mul] at h
      rw [List.length_eq_zero_iff.1 h, Nat.zero_mul, List.drop_zero, List.append_nil, blockOf_toList]
      rfl
  | succ k ih =>
      rw [Nat.succ_mul] at h
      have htake : (c.take n).length = n := by rw [List.length_take]; omega
      have hrest : (c.drop n).length = k * n := by rw [List.length_drop]; omega
      have hdrop : (mode.iv.toList ++ c).drop ((k + 1) * n) = c.drop (k * n) := by
        rw [List.drop_append, List.drop_of_length_le (by rw [Vector.length_toList, Nat.succ_mul]; omega), List.nil_append,
          Vector.length_toList, Nat.succ_mul, Nat.add_sub_cancel]
      rw [Lib.runBlocks_succ, ih hrest, hdrop]
      simp only [decryptBlock, storeIv, toList_blockOf htake, List.take_append_drop]

/-- The last blocks of a text. -/
theorem runBlocks_last {σ : Type} (step : σ → Bytes → Bytes × σ) (s : σ) {c : Bytes} (hn : 0 < n) (hc : c ≠ [])
    (hwhole : c.length % n = 0) :
    ∃ k, c.length = (k + 1) * n ∧ c.length / n = k + 1 ∧ (c.take (k * n)).length = k * n ∧
      (Lib.runBlocks n step (c.length / n) s c).1 = (Lib.runBlocks n step k s (c.take (k * n))).1 ++
        (step (Lib.runBlocks n step k s (c.take (k * n))).2 (c.drop (c.length - n))).1 := by
  have hpos := List.length_pos_iff.2 hc
  obtain ⟨j, hj⟩ := Nat.dvd_of_mod_eq_zero hwhole
  obtain ⟨k, rfl⟩ : ∃ k, j = k + 1 := ⟨j - 1, by
    rcases j with _ | j
    · rw [Nat.mul_zero] at hj
      omega
    · rfl⟩
  have hlen : c.length = (k + 1) * n := by rw [hj, Nat.mul_comm]
  have hdiv : c.length / n = k + 1 := by rw [hlen, Nat.mul_div_cancel _ hn]
  have hfront : (c.take (k * n)).length = k * n := by
    rw [List.length_take, hlen, Nat.succ_mul]
    omega
  have hstart : c.length - n = k * n := by rw [hlen, Nat.succ_mul, Nat.add_sub_cancel]
  have hlast : (c.drop (k * n)).length ≤ n := by rw [List.length_drop, hlen, Nat.succ_mul]; omega
  refine ⟨k, hlen, hdiv, hfront, ?_⟩
  rw [hdiv, hstart]
  conv_lhs => rw [← List.take_append_drop (k * n) c]
  rw [Lib.runBlocks_append hfront 1, Lib.runBlocks_succ, List.take_of_length_le hlast, List.drop_of_length_le hlast]
  simp

theorem CbcMode.decrypt_last {mode : CbcMode n} {c : Bytes} (hc : c ≠ []) (hwhole : c.length % n = 0) :
    ∃ front, (Lib.runBlocks n decryptBlock (c.length / n) mode c).1 =
      front ++ ((BlockMode.cbc mode).lastBlock c).toList := by
  obtain ⟨k, hlen, -, hfront, hrun⟩ :=
    runBlocks_last decryptBlock mode mode.cipher.blockLength_pos hc hwhole
  refine ⟨_, hrun.trans (congrArg _ ?_)⟩
  have hstart : c.length - n = k * n := by rw [hlen, Nat.succ_mul, Nat.add_sub_cancel]
  have hiv : blockOf n ((mode.iv.toList ++ c.take (k * n)).drop (k * n)) =
      blockOf n ((mode.iv.toList ++ c).drop (k * n)) := by
    have hshort : ((mode.iv.toList ++ c.take (k * n)).drop (k * n)).length = n := by
      rw [List.length_drop, List.length_append, hfront, Vector.length_toList, Nat.add_sub_cancel]
    rw [← blockOf_append hshort (b := c.drop (k * n)), ← List.drop_append_of_le_length, List.append_assoc,
      List.take_append_drop]
    rw [List.length_append, hfront]
    exact Nat.le_add_left _ _
  rw [runBlocks_decryptBlock hfront, hiv, hstart]
  simp only [BlockMode.lastBlock, decryptBlock, xorIvPlaintext, storeIv, hstart]

theorem EcbMode.decrypt_last {mode : EcbMode n} {c : Bytes} (hc : c ≠ []) (hwhole : c.length % n = 0) :
    ∃ front, (Lib.runBlocks n decryptBlock (c.length / n) mode c).1 =
      front ++ ((BlockMode.ecb mode).lastBlock c).toList := by
  obtain ⟨k, -, -, -, hrun⟩ :=
    runBlocks_last decryptBlock mode mode.cipher.blockLength_pos hc hwhole
  rw [runBlocks_decryptBlock] at hrun
  exact ⟨_, hrun⟩

namespace BlockMode

theorem paddingChecked_iff (mode : BlockMode n) {ec : Option PaddingErrorCode} {c : Bytes} (hc : c ≠ [])
    (hwhole : c.length % n = 0) :
    mode.PaddingChecked ec c ↔ (mode.StartsClear ec → WellFilled (mode.lastBlock c)) := by
  cases mode with
  | cbc mode =>
      obtain ⟨front, hdata⟩ := mode.decrypt_last hc hwhole
      have h := decryptPadded_isPadded none mode.cipher.blockLength_pos hc hwhole hdata
      exact h.trans ⟨fun h _ => h rfl, fun h _ => h trivial⟩
  | ecb mode =>
      obtain ⟨front, hdata⟩ := mode.decrypt_last hc hwhole
      exact decryptPadded_isPadded ec mode.cipher.blockLength_pos hc hwhole hdata

section

variable {σ : Type} {encryptBlock decryptBlock : σ → Bytes → Bytes × σ} {mode : σ} {p : Bytes}
  {ec : Option PaddingErrorCode}

variable (mode ec) in
/-- A text is restored if and only if its padding is counted in 8 bits. -/
theorem restores_iff (hn : 0 < n) (hlen : ∀ s b, b.length = n → (encryptBlock s b).1.length = n)
    (hback : ∀ s b, b.length = n → decryptBlock s (encryptBlock s b).1 = (b, (encryptBlock s b).2)) (hp : p ≠ []) :
    (decryptPadded n decryptBlock mode ec (Lib.runBlocks n encryptBlock (p.length / n + 1) mode
      (p ++ List.replicate (n - p.length % n) (UInt8.ofNat (n - p.length % n)))).1).1.Restores p ↔
        ec = none ∧ n - p.length % n ≤ 255 := by
  have hmod := Nat.mod_lt p.length hn
  have hpos := List.length_pos_iff.2 hp
  rw [decryptPadded_encrypted hn hlen hback]
  cases ec with
  | some e => exact iff_of_false (fun h => by cases h.1) fun h => by cases h.1
  | none =>
      simp only [Decrypted.Restores, Option.isSome_none, Bool.false_eq_true, if_false, true_and, List.length_append,
        List.length_replicate]
      constructor
      · intro h
        have hlen' := congrArg List.length h
        rw [List.length_take, List.length_append, List.length_replicate] at hlen'
        omega
      · intro hle
        rw [Nat.mod_eq_of_lt (a := n - p.length % n) (by omega), Nat.add_sub_cancel]
        exact List.take_left

variable (mode ec) in
/-- `entry` is what a mode makes of the error code that it gets. -/
theorem encrypted_restores_iff (entry : Option PaddingErrorCode → Option PaddingErrorCode) (hn : 0 < n)
    (hlen : ∀ s b, b.length = n → (encryptBlock s b).1.length = n)
    (hback : ∀ s b, b.length = n → decryptBlock s (encryptBlock s b).1 = (b, (encryptBlock s b).2)) (hp : p ≠ []) :
    ((∀ ec' pb, Pkcs7.getRequiredPaddingSize n p.length ≤ pb.length →
        let r := (encryptPadded n encryptBlock mode (entry ec') p pb).1
        (decryptPadded n decryptBlock mode ec (r.inputOutput ++ r.paddingBuffer.take r.size)).1.Restores p) ∧
      ∀ c, (decryptPadded n decryptBlock mode ec
        ((encryptAppended n encryptBlock mode p c).1.drop c.length)).1.Restores p) ↔
      ec = none ∧ Pkcs7.getRequiredPaddingSize n p.length ≤ 255 := by
  have hiff := restores_iff mode ec hn hlen hback hp
  rw [getRequiredPaddingSize_eq]
  constructor
  · rintro ⟨hplace, -⟩
    have h := hplace none (List.replicate (n - p.length % n) 0) (by rw [List.length_replicate])
    dsimp only at h
    rw [(encryptPadded_eq hn hlen hp (by rw [List.length_replicate])).1] at h
    exact hiff.1 h
  · intro h
    refine ⟨fun ec' pb hpb => ?_, fun c => ?_⟩
    · dsimp only
      rw [(encryptPadded_eq hn hlen hp hpb).1]
      exact hiff.2 h
    · rw [encryptAppended_eq hn (by omega), List.drop_left]
      exact hiff.2 h

end

theorem roundTrips_iff (mode : BlockMode n) {ec : Option PaddingErrorCode} {p : Bytes} (hp : p ≠ []) :
    mode.RoundTrips ec p ↔ mode.StartsClear ec ∧ Pkcs7.getRequiredPaddingSize n p.length ≤ 255 := by
  cases mode with
  | cbc mode =>
      have h := encrypted_restores_iff mode none (fun _ => none) mode.cipher.blockLength_pos
        (fun s b _ => CbcMode.length_encryptBlock s b) (fun s b hb => s.decryptBlock_encryptBlock hb) hp
      have hinto : ∀ c, (cbc mode).encryptInto p c = (encryptAppended n CbcMode.encryptBlock mode p c).1 := fun c =>
        congrArg Prod.fst (if_neg hp)
      refine Iff.trans ⟨fun hr => ⟨hr.inPlace, fun c => ?_⟩, fun hr => ⟨hr.1, fun c => ?_⟩⟩
        (h.trans ⟨fun h => ⟨trivial, h.2⟩, fun h => ⟨rfl, h.2⟩⟩)
      · rw [hinto]
        exact hr.2 c
      · rw [← hinto]
        exact hr.appended c
  | ecb mode =>
      have h := encrypted_restores_iff mode ec id mode.cipher.blockLength_pos
        (fun s b _ => EcbMode.length_encryptBlock s b) (fun s b hb => s.decryptBlock_encryptBlock hb) hp
      exact Iff.trans ⟨fun hr => ⟨hr.inPlace, hr.appended⟩, fun hr => ⟨hr.1, hr.2⟩⟩ h

end BlockMode

end

/-! ## Where the padding is checked, and the texts are restored -/

theorem padding_checked_iff {n : Nat} (mode : BlockMode n) (ec : Option PaddingErrorCode) {ciphertext plaintext : Bytes}
    (hc : ciphertext ≠ []) (hwhole : ciphertext.length % n = 0) (hp : plaintext ≠ []) :
    (mode.PaddingChecked ec ciphertext ∧ mode.RoundTrips ec plaintext) ↔
      ((mode.StartsClear ec → WellFilled (mode.lastBlock ciphertext)) ∧
        mode.StartsClear ec ∧ Pkcs7.getRequiredPaddingSize n plaintext.length ≤ 255) :=
  and_congr (mode.paddingChecked_iff hc hwhole) (mode.roundTrips_iff hp)

/-- The cipher that XORs each block with the key. -/
def xorCipher (key : Vector UInt8 16) : BlockCipher 16 where
  encrypt block := xorBlocks block key
  decrypt block := xorBlocks block key
  blockLength_pos := by decide
  decrypt_encrypt block := xorBlocks_xorBlocks block key

theorem padding_checked_iff_xor :
    (BlockMode.ecb ⟨xorCipher (Vector.replicate 16 7)⟩).PaddingChecked none (List.replicate 16 0x17) ∧
      (BlockMode.ecb ⟨xorCipher (Vector.replicate 16 7)⟩).RoundTrips none [1] :=
  (padding_checked_iff (.ecb ⟨xorCipher (Vector.replicate 16 7)⟩) none (by decide) (by decide) (by decide)).2
    ⟨fun _ => ⟨0x10, by decide +kernel, .inr ⟨by decide, by decide +kernel⟩⟩, rfl, by decide⟩

/-- A block of zeros is taken for 16 bytes without a padding. -/
theorem zeros_are_accepted :
    ¬(BlockMode.cbc ⟨xorCipher (Vector.replicate 16 0xaa), Vector.replicate 16 0⟩).PaddingChecked none
      (List.replicate 16 0xaa) := by
  rw [BlockMode.paddingChecked_iff _ (by decide) (by decide)]
  intro h
  obtain ⟨b, hb, hcase⟩ := h trivial
  have hzero : some b = some 0 := hb.symm.trans (by decide +kernel)
  cases hzero
  rcases hcase with hcase | ⟨hcase, -⟩
  · exact absurd hcase (by decide)
  · exact absurd hcase (by decide)

end Rad.Crypto
