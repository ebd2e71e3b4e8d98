import Rad.Crypto.Theorems

/-!
# A new iv starts a new message

Two objects are compared: one with a history that is given a new iv, and a new one. They have to answer every later sequence
of calls alike.
-/

namespace Rad.Crypto

open Lib

/-! ## `ctr_mode` -/

namespace CtrMode

inductive Call where
  | encrypt (input : Bytes)
  | decrypt (ciphertext : Bytes)

def perform (m : CtrMode) : Call → Option (Bytes × CtrMode)
  | .encrypt input => m.encrypt input
  | .decrypt ciphertext => m.decrypt ciphertext

/-- The outputs of the calls; none where one of them is undefined. -/
def results (m : CtrMode) : List Call → Option (List Bytes)
  | [] => some []
  | c :: calls =>
    match m.perform c with
    | none => none
    | some (out, m) => (results m calls).map (out :: ·)

/-- The objects that constructions, calls and new ivs lead to. -/
inductive Reachable : CtrMode → Prop
  | ofIv (cipher : Block → Block) (iv : Block) : Reachable (ofIv cipher iv)
  | call {m m' : CtrMode} {c : Call} {out : Bytes} : Reachable m → m.perform c = some (out, m') → Reachable m'
  | setIv {m : CtrMode} (iv : Block) : Reachable m → Reachable (m.setIv iv)

def StartsAnew (m : CtrMode) : Prop :=
  ∀ iv calls, (m.setIv iv).results calls = (ofIv m.cipher iv).results calls

variable {m m' : CtrMode} {c out : Bytes}

theorem lastBlockSize_encryptWholeBlocks (m : CtrMode) (n : Nat) (c : Bytes) :
    (m.encryptWholeBlocks n c).2.lastBlockSize = m.lastBlockSize := by
  induction n generalizing m c with
  | zero => rfl
  | succ n ih => exact ih _ _

theorem lastBlockSize_encryptNewBlocks (h : m.lastBlockSize ≠ 16) : (m.encryptNewBlocks c).2.lastBlockSize ≠ 16 := by
  unfold encryptNewBlocks
  rw [show Block.length = 16 from rfl]
  dsimp only
  split
  · rwa [lastBlockSize_encryptWholeBlocks]
  · dsimp only
    rw [List.length_drop]
    omega

/-- A whole block is never counted as taken. -/
theorem lastBlockSize_encrypt (h : m.lastBlockSize ≠ 16) (hcall : m.encrypt c = some (out, m')) :
    m'.lastBlockSize ≠ 16 := by
  by_cases hc : c = []
  · subst hc
    rw [encrypt_nil] at hcall
    cases hcall
    exact h
  · rw [encrypt_eq hc, Option.bind_eq_some_iff] at hcall
    obtain ⟨⟨block, rest, m₁⟩, hlast, hcall⟩ := hcall
    have hm₁ : m₁.lastBlockSize ≠ 16 := by
      unfold encryptLastBlock at hlast
      split at hlast
      · cases hlast
        exact h
      · split at hlast
        · cases hlast
        · rename_i hpos hle
          have hsub : sizeSub m.lastBlockSize (min (sizeSub Block.length m.lastBlockSize) c.length) ≠ 16 := by
            unfold sizeSub Block.length at *
            omega
          cases hlast
          split
          · exact hsub
          · exact hsub
    split at hcall
    · cases hcall
      exact hm₁
    · cases hcall
      exact lastBlockSize_encryptNewBlocks hm₁

theorem Reachable.lastBlockSize_ne (h : Reachable m) : m.lastBlockSize ≠ 16 := by
  induction h with
  | ofIv cipher iv => exact show 0 ≠ 16 by decide
  | @call m m' c out _ hcall ih =>
      cases c with
      | encrypt input => exact lastBlockSize_encrypt ih hcall
      | decrypt ciphertext => exact lastBlockSize_encrypt ih hcall
  | setIv iv _ ih => exact ih

theorem startsAnew_of_zero (h : m.lastBlockSize = 0) : m.StartsAnew := by
  intro iv calls
  have hsame : m.setIv iv = ofIv m.cipher iv := by
    unfold setIv ofIv
    rw [h]
  rw [hsame]

theorem results_single {c : Bytes} : m.results [.encrypt c] = (m.encrypt c).map fun r => [r.1] := by
  rw [results, perform]
  cases m.encrypt c with
  | none => rfl
  | some r => rfl

/-- A cipher that permutes the blocks tells the old offset from the start of a block. -/
theorem Reachable.zero_of_startsAnew (h : Reachable m) (hcipher : Function.Injective m.cipher) (hnew : m.StartsAnew) :
    m.lastBlockSize = 0 := by
  have hfinite : Finite Block := Finite.of_injective BitVec.toFin fun _ _ => BitVec.eq_of_toFin_eq
  obtain ⟨iv, hiv⟩ := Finite.surjective_of_injective hcipher (ruler 0)
  have hresults := hnew iv [.encrypt [0]]
  rw [results_single, results_single] at hresults
  have hfresh : (CtrMode.ofIv m.cipher iv).encrypt [0] =
      some (xorStream (keystream m.cipher iv) 0 [0], behind m.cipher iv 1) := by
    rw [← behind_zero]
    exact encrypt_boundary rfl
  rw [hfresh, Option.map_some, Option.map_eq_some_iff] at hresults
  obtain ⟨⟨out, m'⟩, hcall, hout⟩ := hresults
  obtain ⟨hle, rest, hfirst⟩ := encrypt_first hcall h.lastBlockSize_ne
  rw [List.singleton_inj] at hout
  dsimp only at hout
  rw [hout, xorStream] at hfirst
  have hbyte := (UInt8.xor_right_inj 0).1 (List.cons.inj hfirst).1
  have hstart : keystream m.cipher iv 0 = 0 := by
    rw [keystream, position, Nat.zero_div, show iv + BitVec.ofNat 128 0 = iv by simp, hiv]
    exact byte_ruler 0 (Nat.zero_lt_succ 15)
  have hoffset : (m.cipher iv).byte m.lastBlockSize = UInt8.ofNat m.lastBlockSize := by
    rw [hiv]
    exact byte_ruler 0 (Nat.lt_of_le_of_ne hle h.lastBlockSize_ne)
  have hsame : (0 : UInt8) = UInt8.ofNat m.lastBlockSize := hstart.symm.trans (hbyte.trans hoffset)
  have hinj : ∀ i ≤ 16, (0 : UInt8) = UInt8.ofNat i → i = 0 := by decide
  exact hinj _ hle hsame

end CtrMode

/-! ## `gcm_mode` -/

namespace GcmMode

inductive Call where
  | encrypt (input additionalData : Bytes) (tagSize : Nat)
  | decrypt (input aadData tag : Bytes)
  | encryptNoAuth (input : Bytes)
  | decryptNoAuth (input : Bytes)

/-- What a call gives: the output, none where the tags differ, and the tag. -/
structure Result where
  output : Option Bytes
  tag : Bytes := []

def perform (m : GcmMode) : Call → Result × GcmMode
  | .encrypt input additionalData tagSize =>
    let r := m.encrypt input additionalData tagSize
    (⟨some r.1, r.2.1⟩, r.2.2)
  | .decrypt input aadData tag =>
    let r := m.decrypt input aadData tag
    (⟨r.1, []⟩, r.2)
  | .encryptNoAuth input =>
    let r := m.encryptNoAuth input
    (⟨some r.1, []⟩, r.2)
  | .decryptNoAuth input =>
    let r := m.decryptNoAuth input
    (⟨some r.1, []⟩, r.2)

def results (m : GcmMode) : List Call → List Result
  | [] => []
  | c :: calls => (m.perform c).1 :: results (m.perform c).2 calls

/-- The objects that constructions, calls, new ivs and new keys lead to. -/
inductive Reachable : GcmMode → Prop
  | ofKeyIv (cipher : Block → Block) (iv : Bytes) (uninitialised : Block) : Reachable (ofKeyIv cipher iv uninitialised)
  | call {m : GcmMode} (c : Call) : Reachable m → Reachable (m.perform c).2
  | setIv {m : GcmMode} (iv : Bytes) : Reachable m → Reachable (m.setIv iv)
  | setKeyIv {m : GcmMode} (cipher : Block → Block) (iv : Bytes) : Reachable m → Reachable (m.setKeyIv cipher iv)

def StartsAnew (m : GcmMode) : Prop :=
  (∀ iv uninitialised calls, (m.setIv iv).results calls = (ofKeyIv m.cipher iv uninitialised).results calls) ∧
    ∀ cipher iv uninitialised calls,
      (m.setKeyIv cipher iv).results calls = (ofKeyIv cipher iv uninitialised).results calls

variable {m m' : GcmMode} {c : Bytes}

/-- The objects differ at most in a saved block of which nothing is left. -/
def Agree (m m' : GcmMode) : Prop :=
  m = m' ∨ m.remainingIvSize = 0 ∧ ∃ saved, m' = { m with remainingIvEncrypted := saved }

theorem encryptWholeBlocks_saved (m : GcmMode) (saved : Block) (n : Nat) (c : Bytes) :
    encryptWholeBlocks { m with remainingIvEncrypted := saved } n c =
      ((m.encryptWholeBlocks n c).1, { (m.encryptWholeBlocks n c).2 with remainingIvEncrypted := saved }) := by
  induction n generalizing m c with
  | zero => rfl
  | succ n ih =>
      have hrest := ih { m with ivCounter := incr m.ivCounter } (c.drop Block.length)
      rw [encryptWholeBlocks, encryptWholeBlocks]
      dsimp only
      rw [hrest]

/-- A call changes the counter, the saved block and how much of it is left. -/
theorem encryptWholeBlocks_fields (m : GcmMode) (n : Nat) (c : Bytes) :
    ∃ counter, (m.encryptWholeBlocks n c).2 = { m with ivCounter := counter } := by
  induction n generalizing m c with
  | zero => exact ⟨m.ivCounter, rfl⟩
  | succ n ih =>
      obtain ⟨counter, h⟩ := ih { m with ivCounter := incr m.ivCounter } (c.drop Block.length)
      exact ⟨counter, h⟩

theorem encryptNewBlocks_saved (m : GcmMode) (saved : Block) (c : Bytes) (h : m.remainingIvSize = 0) :
    (encryptNewBlocks { m with remainingIvEncrypted := saved } c).1 = (m.encryptNewBlocks c).1 ∧
      Agree (m.encryptNewBlocks c).2 (encryptNewBlocks { m with remainingIvEncrypted := saved } c).2 := by
  unfold encryptNewBlocks
  rw [encryptWholeBlocks_saved]
  dsimp only
  obtain ⟨counter, hstate⟩ := encryptWholeBlocks_fields m (c.length / Block.length) c
  split
  · refine ⟨rfl, .inr ⟨?_, saved, rfl⟩⟩
    rw [hstate]
    exact h
  · exact ⟨rfl, .inl rfl⟩

theorem Agree.encryptBlocks (h : Agree m m') (c : Bytes) :
    (m'.encryptBlocks c).1 = (m.encryptBlocks c).1 ∧ Agree (m.encryptBlocks c).2 (m'.encryptBlocks c).2 := by
  rcases h with rfl | ⟨hzero, saved, rfl⟩
  · exact ⟨rfl, .inl rfl⟩
  · have hfirst : m.encryptWithRemainingIvCounter c = ([], m) := if_pos hzero
    have hfirst' : encryptWithRemainingIvCounter { m with remainingIvEncrypted := saved } c = ([], _) := if_pos hzero
    unfold GcmMode.encryptBlocks
    rw [hfirst, hfirst']
    dsimp only
    split
    · exact ⟨rfl, .inr ⟨hzero, saved, rfl⟩⟩
    · have hnew := encryptNewBlocks_saved m saved c hzero
      exact ⟨hnew.1, hnew.2⟩

theorem Agree.fields (h : Agree m m') :
    m'.h = m.h ∧ m'.ekY0 = m.ekY0 ∧ m'.cipher = m.cipher ∧ m'.ivCounter = m.ivCounter := by
  rcases h with rfl | ⟨-, saved, rfl⟩
  · exact ⟨rfl, rfl, rfl, rfl⟩
  · exact ⟨rfl, rfl, rfl, rfl⟩

theorem Agree.tag (h : Agree m m') (aad c : Bytes) : m'.tag aad c = m.tag aad c := by
  unfold GcmMode.tag
  rw [h.fields.1, h.fields.2.1]

theorem Agree.incr (h : Agree m m') :
    Agree { m with ivCounter := incr m.ivCounter } { m' with ivCounter := GcmMode.incr m'.ivCounter } := by
  rcases h with rfl | ⟨hzero, saved, rfl⟩
  · exact .inl rfl
  · exact .inr ⟨hzero, saved, rfl⟩

theorem Agree.perform (h : Agree m m') (c : Call) :
    (m'.perform c).1 = (m.perform c).1 ∧ Agree (m.perform c).2 (m'.perform c).2 := by
  cases c with
  | encrypt input aad tagSize =>
      obtain ⟨hout, hagree⟩ := h.encryptBlocks input
      simp only [GcmMode.perform, GcmMode.encrypt, hout, hagree.tag]
      exact ⟨trivial, hagree⟩
  | decrypt input aad tag =>
      obtain ⟨hout, hagree⟩ := h.encryptBlocks input
      simp only [GcmMode.perform, GcmMode.decrypt, h.tag]
      split
      · exact ⟨rfl, h⟩
      · exact ⟨by rw [hout], hagree⟩
  | encryptNoAuth input =>
      obtain ⟨hout, hagree⟩ := h.encryptBlocks input
      simp only [GcmMode.perform, GcmMode.encryptNoAuth, hout]
      exact ⟨trivial, hagree⟩
  | decryptNoAuth input =>
      obtain ⟨hout, hagree⟩ := h.encryptBlocks input
      simp only [GcmMode.perform, GcmMode.decryptNoAuth]
      split
      · exact ⟨by rw [hout], hagree⟩
      · refine ⟨?_, hagree.incr⟩
        rw [hout, hagree.fields.2.2.1, hagree.fields.2.2.2]

/-- Objects that agree answer every sequence of calls alike. -/
theorem Agree.results (h : Agree m m') (calls : List Call) : m.results calls = m'.results calls := by
  induction calls generalizing m m' with
  | nil => rfl
  | cons c calls ih =>
      obtain ⟨hresult, hagree⟩ := h.perform c
      rw [GcmMode.results, GcmMode.results, hresult, ih hagree]

/-! ### Histories -/

theorem encryptBlocks_key (m : GcmMode) (c : Bytes) :
    (m.encryptBlocks c).2.h = m.h ∧ (m.encryptBlocks c).2.cipher = m.cipher := by
  have hfirst : (m.encryptWithRemainingIvCounter c).2.h = m.h ∧ (m.encryptWithRemainingIvCounter c).2.cipher = m.cipher := by
    unfold encryptWithRemainingIvCounter
    split
    · exact ⟨rfl, rfl⟩
    · exact ⟨rfl, rfl⟩
  have hnew : ∀ (m : GcmMode) (c : Bytes), (m.encryptNewBlocks c).2.h = m.h ∧
      (m.encryptNewBlocks c).2.cipher = m.cipher := by
    intro m c
    obtain ⟨counter, hstate⟩ := encryptWholeBlocks_fields m (c.length / Block.length) c
    unfold encryptNewBlocks
    dsimp only
    rw [hstate]
    split
    · rw [hstate]
      exact ⟨rfl, rfl⟩
    · exact ⟨rfl, rfl⟩
  unfold encryptBlocks
  dsimp only
  split
  · exact hfirst
  · exact ⟨(hnew _ _).1.trans hfirst.1, (hnew _ _).2.trans hfirst.2⟩

theorem perform_key (m : GcmMode) (c : Call) : (m.perform c).2.h = m.h ∧ (m.perform c).2.cipher = m.cipher := by
  cases c with
  | encrypt input aad tagSize => exact encryptBlocks_key m input
  | decrypt input aad tag =>
      simp only [perform, decrypt]
      split
      · exact ⟨rfl, rfl⟩
      · exact encryptBlocks_key m input
  | encryptNoAuth input => exact encryptBlocks_key m input
  | decryptNoAuth input =>
      simp only [perform, decryptNoAuth]
      split
      · exact encryptBlocks_key m input
      · exact encryptBlocks_key m input

/-- `H` belongs to the key. -/
theorem Reachable.h_eq (h : Reachable m) : m.h = m.cipher 0 := by
  induction h with
  | ofKeyIv cipher iv uninitialised => rfl
  | @call m c _ ih =>
      obtain ⟨hh, hcipher⟩ := perform_key m c
      rw [hh, hcipher, ih]
  | setIv iv _ ih => exact ih
  | setKeyIv cipher iv _ _ => rfl

theorem agree_setIv (hh : m.h = m.cipher 0) (hzero : m.remainingIvSize = 0) (iv : Bytes) (uninitialised : Block) :
    Agree (m.setIv iv) (ofKeyIv m.cipher iv uninitialised) := by
  refine .inr ⟨hzero, uninitialised, ?_⟩
  simp only [GcmMode.setIv, GcmMode.ofKeyIv, updateEkY0, updateH, hh, hzero]

/-- The first byte is XORed with what is left of the saved block. -/
theorem encryptBlocks_of_saved (hpos : m.remainingIvSize ≠ 0) (b : UInt8) :
    (m.encryptBlocks [b]).1 = [b ^^^ m.remainingIvEncrypted.byte (Block.length - m.remainingIvSize)] := by
  have hfirst : (m.encryptWithRemainingIvCounter [b]).1 =
      [b ^^^ m.remainingIvEncrypted.byte (Block.length - m.remainingIvSize)] := by
    have hmin : min m.remainingIvSize [b].length = 1 := Nat.min_eq_right (Nat.one_le_iff_ne_zero.2 hpos)
    unfold encryptWithRemainingIvCounter
    rw [if_neg hpos]
    dsimp only
    rw [hmin]
    rfl
  unfold encryptBlocks
  dsimp only
  rw [hfirst]
  exact if_pos rfl ▸ hfirst

theorem Reachable.startsAnew_iff (h : Reachable m) : m.StartsAnew ↔ m.remainingIvSize = 0 := by
  constructor
  · rintro ⟨-, hkey⟩
    by_contra hpos
    -- the first byte under the new key is XORed with what is left of the old block, which the new key may not give
    generalize hold : m.remainingIvEncrypted.byte (Block.length - m.remainingIvSize) = old
    obtain ⟨x, hx⟩ : ∃ x : Block, x.byte 0 ≠ old := by
      by_cases hzero : old = 0
      · exact ⟨BitVec.allOnes 128, by rw [Block.byte_allOnes (by decide), hzero]; decide⟩
      · exact ⟨0, by rw [show Block.byte 0 0 = 0 from by decide]; exact Ne.symm hzero⟩
    have hresults := hkey (fun _ => x) [] 0 [.encryptNoAuth [0]]
    have hstale := encryptBlocks_of_saved (m := m.setKeyIv (fun _ => x) []) hpos 0
    have hfresh := ((behind_ofKeyIv (fun _ => x) [] 0).encryptBlocks (c := [0])).1
    have hout := congrArg Result.output (List.cons.inj hresults).1
    have hsame : ((m.setKeyIv (fun _ => x) []).encryptBlocks [0]).1 = (GcmMode.encryptBlocks (.ofKeyIv (fun _ => x) [] 0) [0]).1 :=
      Option.some.inj hout
    rw [hstale, hfresh, xorStream, xorStream_nil, List.singleton_inj, UInt8.xor_right_inj] at hsame
    exact hx (hsame.symm.trans hold)
  · intro hzero
    refine ⟨fun iv uninitialised calls => (agree_setIv h.h_eq hzero iv uninitialised).results calls, ?_⟩
    intro cipher iv uninitialised calls
    exact (agree_setIv (m := { m with cipher }.updateH) rfl hzero iv uninitialised).results calls

end GcmMode

/-- After every history, an object that is given a new iv answers as a new one just when nothing of a block is left over:
`last_block_size_` and `remaining_iv_size_` are zero. A `ctr_mode` object keeps its cipher, and the converse is for ciphers
that permute the blocks. -/
theorem new_iv_starts_anew {ctr : CtrMode} {gcm : GcmMode} (hctr : ctr.Reachable) (hgcm : gcm.Reachable) :
    ((ctr.lastBlockSize = 0 → ctr.StartsAnew) ∧
      (Function.Injective ctr.cipher → ctr.StartsAnew → ctr.lastBlockSize = 0)) ∧
    (gcm.StartsAnew ↔ gcm.remainingIvSize = 0) :=
  ⟨⟨CtrMode.startsAnew_of_zero, hctr.zero_of_startsAnew⟩, hgcm.startsAnew_iff⟩

theorem new_iv_starts_anew_whole_blocks :
    (CtrMode.behind id 5 16).StartsAnew ∧
      ((GcmMode.ofKeyIv id [1] 0).perform (.encryptNoAuth (List.replicate 16 1))).2.StartsAnew := by
  have hctr : CtrMode.Reachable (CtrMode.behind id 5 16) :=
    .call (c := .encrypt (List.replicate 16 0)) (.ofIv id 5)
      (by rw [← CtrMode.behind_zero]; exact CtrMode.encrypt_boundary rfl)
  have hgcm : GcmMode.Reachable ((GcmMode.ofKeyIv id [1] 0).perform (.encryptNoAuth (List.replicate 16 1))).2 :=
    .call _ (.ofKeyIv id [1] 0)
  have hsize := ((GcmMode.behind_ofKeyIv id [1] 0).encryptBlocks (c := List.replicate 16 1)).2.size_eq
  exact ⟨(new_iv_starts_anew hctr hgcm).1.1 rfl, (new_iv_starts_anew hctr hgcm).2.2 (hsize.trans (by decide))⟩

/-- A message of one byte, then a new iv: in both modes the next message is encrypted from the second byte on. -/
theorem old_keystream_left :
    ¬ (∀ m, CtrMode.Reachable m → m.StartsAnew) ∧ ¬ (∀ m, GcmMode.Reachable m → m.StartsAnew) := by
  constructor
  · intro h
    have hreach : CtrMode.Reachable (CtrMode.behind id 5 1) :=
      .call (c := .encrypt [0]) (.ofIv id 5) (by rw [← CtrMode.behind_zero]; exact CtrMode.encrypt_boundary rfl)
    exact absurd (hreach.zero_of_startsAnew Function.injective_id (h _ hreach)) (by decide)
  · intro h
    have hreach : GcmMode.Reachable ((GcmMode.ofKeyIv id [1] 0).perform (.encryptNoAuth [1])).2 := .call _ (.ofKeyIv id [1] 0)
    have hsize := ((GcmMode.behind_ofKeyIv id [1] 0).encryptBlocks (c := [1])).2.size_eq
    exact absurd (hsize.symm.trans (hreach.startsAnew_iff.1 (h _ hreach))) (by decide)

end Rad.Crypto
