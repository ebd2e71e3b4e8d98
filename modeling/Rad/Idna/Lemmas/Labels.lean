import Rad.Idna.Basic
import Rad.Lib.Split
import Rad.Text.Lemmas.Codecs

/-!
# Code points and labels

A domain name is looked at as the code points that it encodes.
-/

namespace Rad.Idna

/-! ## ASCII -/

/-- A text of ASCII characters. -/
def IsAscii (t : Bytes) : Prop := ∀ b ∈ t, b < 0x80

instance (t : Bytes) : Decidable (IsAscii t) := List.decidableBAll (fun b => b < 0x80) t

variable {t u : Bytes} {b : UInt8} {cp : Nat} {cps : List Nat}

theorem IsAscii.nil : IsAscii [] := nofun

theorem isAscii_cons : IsAscii (b :: t) ↔ b < 0x80 ∧ IsAscii t := List.forall_mem_cons

theorem isAscii_append : IsAscii (t ++ u) ↔ IsAscii t ∧ IsAscii u := List.forall_mem_append

theorem utf8Encode_low (h : cp < 0x80) : utf8Encode cp = [UInt8.ofNat cp] := if_pos (Nat.le_of_lt_succ h)

/-- The bytes of a code point that is not ASCII are not ASCII. -/
theorem utf8Encode_high (h : 0x80 ≤ cp) : ∀ b ∈ utf8Encode cp, 0x80 ≤ b := by
  have hor : ∀ n < 256, 0x80 ≤ (0x80 ||| UInt8.ofNat n : UInt8) ∧ 0x80 ≤ (0xc0 ||| UInt8.ofNat n : UInt8) ∧
      0x80 ≤ (0xe0 ||| UInt8.ofNat n : UInt8) ∧ 0x80 ≤ (0xf0 ||| UInt8.ofNat n : UInt8) := by decide +kernel
  have hbyte (n k : Nat) (hk : 0 < k) (hk' : k ≤ 256) := hor (n % k) (Nat.lt_of_lt_of_le (Nat.mod_lt n hk) hk')
  intro b hb
  rw [utf8Encode, if_neg (by omega)] at hb
  split at hb
  · simp only [List.mem_cons, List.not_mem_nil, or_false] at hb
    rcases hb with rfl | rfl
    · exact (hbyte _ 32 (by decide) (by decide)).2.1
    · exact (hbyte _ 64 (by decide) (by decide)).1
  split at hb
  · simp only [List.mem_cons, List.not_mem_nil, or_false] at hb
    rcases hb with rfl | rfl | rfl
    · exact (hbyte _ 16 (by decide) (by decide)).2.2.1
    · exact (hbyte _ 64 (by decide) (by decide)).1
    · exact (hbyte _ 64 (by decide) (by decide)).1
  · simp only [List.mem_cons, List.not_mem_nil, or_false] at hb
    rcases hb with rfl | rfl | rfl | rfl
    · exact (hbyte _ 8 (by decide) (by decide)).2.2.2
    · exact (hbyte _ 64 (by decide) (by decide)).1
    · exact (hbyte _ 64 (by decide) (by decide)).1
    · exact (hbyte _ 64 (by decide) (by decide)).1

theorem ofNat_lt_iff (h : cp < 0x80) : UInt8.ofNat cp < 0x80 := by
  rw [UInt8.lt_iff_toNat_lt, UInt8.toNat_ofNat']
  show cp % 256 < 128
  omega

theorem isAscii_flatMap : IsAscii (cps.flatMap utf8Encode) ↔ ∀ cp ∈ cps, cp < 0x80 := by
  constructor
  · intro h cp hcp
    by_contra hhigh
    obtain ⟨b, hb⟩ := List.exists_mem_of_ne_nil _ (utf8Encode_ne_nil cp)
    have hlow := h b (List.mem_flatMap.2 ⟨cp, hcp, hb⟩)
    exact absurd (utf8Encode_high (Nat.not_lt.1 hhigh) b hb) (UInt8.not_le.2 hlow)
  · intro h b hb
    obtain ⟨cp, hcp, hb⟩ := List.mem_flatMap.1 hb
    rw [utf8Encode_low (h cp hcp), List.mem_singleton] at hb
    rw [hb]
    exact ofNat_lt_iff (h cp hcp)

theorem utf8DecodeAll_valid (h : utf8DecodeAll t = .ok cps) : ∀ cp ∈ cps, isValidCodepoint cp = true := by
  induction t using utf8DecodeAll.induct generalizing cps with
  | case1 =>
      rw [utf8DecodeAll_nil] at h
      cases h
      simp
  | case2 b t cp rest hdecode ih =>
      rw [utf8DecodeAll_of_ok hdecode] at h
      cases hrest : utf8DecodeAll rest with
      | error e => rw [hrest] at h; cases h
      | ok cps' =>
          rw [hrest] at h
          cases h
          obtain ⟨-, -, -, -, -, -, hvalid, -⟩ := utf8Decode_ok hdecode
          exact List.forall_mem_cons.2 ⟨hvalid, ih hrest⟩
  | case3 b t e rest hdecode =>
      rw [utf8DecodeAll] at h
      split at h
      · rename_i h'
        rw [hdecode] at h'
        cases h'
      · cases h

/-! ## Labels -/

/-- The labels of a text are encoded labels of code points. -/
theorem labels_flatMap (cps : List Nat) :
    labels (cps.flatMap utf8Encode) = (cps.splitOn 0x2e).map fun label => label.flatMap utf8Encode := by
  induction cps with
  | nil => rfl
  | cons cp cps ih =>
      rw [labels] at ih ⊢
      rw [List.flatMap_cons, List.splitOn_cons_eq_if_modifyHead]
      by_cases hdot : cp = 0x2e
      · subst hdot
        rw [if_pos (beq_self_eq_true _), List.map_cons, ← ih]
        exact (List.splitOn_cons_eq_if_modifyHead _ _).trans (if_pos rfl)
      · have hsep : (0x2e : UInt8) ∉ utf8Encode cp := by
          intro hmem
          by_cases hlow : cp < 0x80
          · rw [utf8Encode_low hlow, List.mem_singleton, ← UInt8.toNat_inj, UInt8.toNat_ofNat'] at hmem
            exact hdot (by simpa [Nat.mod_eq_of_lt (show cp < 256 by omega)] using hmem.symm)
          · exact absurd (utf8Encode_high (Nat.not_lt.1 hlow) _ hmem) (by decide)
        rw [if_neg (by simpa using hdot), Lib.splitOn_append hsep, ih]
        cases cps.splitOn 0x2e <;> rfl

/-! ## The labels that are encoded -/

theorem needsPunycodeEncode_nil : needsPunycodeEncode [] = false := by
  rw [needsPunycodeEncode]
  rfl

theorem needsPunycodeEncode_of_decode {rest : Bytes} (h : utf8Decode t = (.ok cp, rest)) :
    needsPunycodeEncode t = (cp > 127 || needsPunycodeEncode rest) := by
  have h' := utf8DecodeUnchecked_of_decode h
  rw [needsPunycodeEncode]
  split
  · rename_i hdecode
    rw [h'] at hdecode
    cases hdecode
    rfl
  · rename_i hdecode
    rw [h'] at hdecode
    cases hdecode

theorem needsPunycodeEncode_flatMap (h : ∀ cp ∈ cps, isValidCodepoint cp = true) :
    needsPunycodeEncode (cps.flatMap utf8Encode) = cps.any (· > 127) := by
  induction cps with
  | nil => exact needsPunycodeEncode_nil
  | cons cp cps ih =>
      obtain ⟨hvalid, h⟩ := List.forall_mem_cons.1 h
      rw [List.flatMap_cons, needsPunycodeEncode_of_decode (utf8Decode_utf8Encode hvalid _), ih h, List.any_cons]

theorem needsPunycodeEncode_ascii (h : IsAscii t) : needsPunycodeEncode t = false := by
  induction t with
  | nil => exact needsPunycodeEncode_nil
  | cons b t ih =>
      obtain ⟨hb, ht⟩ := isAscii_cons.1 h
      rw [needsPunycodeEncode_of_decode (utf8Decode_ascii hb t), ih ht, Bool.or_false, decide_eq_false_iff_not]
      have := UInt8.lt_iff_toNat_lt.1 hb
      have h80 : (0x80 : UInt8).toNat = 128 := rfl
      omega

/-! ## Punycode is ASCII -/

theorem threshold_le (bias k : UInt32) : (threshold bias k).toNat ≤ 26 := by
  rw [threshold]
  split
  · decide
  split
  · decide
  · rename_i hlow hhigh
    have h1 := UInt32.not_le.1 hlow
    have h2 := UInt32.lt_iff_toNat_lt.1 (UInt32.not_le.1 hhigh)
    have h1' := UInt32.lt_iff_toNat_lt.1 h1
    rw [UInt32.toNat_add] at h2
    have h26 : punycodeTmax.toNat = 26 := rfl
    rw [UInt32.toNat_sub_of_le _ _ (UInt32.le_of_lt h1)]
    omega

theorem encodeDigit_ascii {d : UInt32} (h : d.toNat < 36) : encodeDigit d < 0x80 := by
  have hall : ∀ n < 36, encodeDigit (UInt32.ofNat n) < 0x80 := by decide
  have := hall d.toNat h
  rwa [UInt32.ofNat_toNat] at this

theorem encodeNumber_ascii (bias k q : UInt32) : IsAscii (encodeNumber bias k q) := by
  induction k, q using encodeNumber.induct bias with
  | case1 k q t h =>
      rw [encodeNumber, if_pos h]
      have hle : t.toNat ≤ 26 := threshold_le bias k
      have hlt := UInt32.lt_iff_toNat_lt.1 h
      exact isAscii_cons.2 ⟨encodeDigit_ascii (by omega), .nil⟩
  | case2 k q t h ih =>
      rw [encodeNumber, if_neg h]
      refine isAscii_cons.2 ⟨encodeDigit_ascii ?_, ih⟩
      have hle : t.toNat ≤ 26 := threshold_le bias k
      have hbase : punycodeBase.toNat = 36 := rfl
      have hsub : (punycodeBase - t).toNat = 36 - t.toNat :=
        UInt32.toNat_sub_of_le _ _ (UInt32.le_iff_toNat_le.2 (by omega))
      have hmod := Nat.mod_lt (q - t).toNat (show 0 < 36 - t.toNat by omega)
      show (t + (q - t) % (punycodeBase - t)).toNat < 36
      rw [UInt32.toNat_add, UInt32.toNat_mod, hsub]
      exact Nat.lt_of_le_of_lt (Nat.mod_le _ _) (by omega)

theorem encodeCodepoint_ascii {b : UInt32} {s : EncodeState} (h : IsAscii s.output) (c : Nat) :
    IsAscii (encodeCodepoint b s c).output := by
  rw [encodeCodepoint]
  split
  · exact h
  split
  · exact isAscii_append.2 ⟨h, encodeNumber_ascii _ _ _⟩
  · exact h

theorem encodeCodepoints_ascii {b : UInt32} {s : EncodeState} (h : IsAscii s.output) (cps : List Nat) :
    IsAscii (cps.foldl (encodeCodepoint b) s).output := by
  induction cps generalizing s with
  | nil => exact h
  | cons c cps ih => exact ih (encodeCodepoint_ascii h c)

theorem encodeNonBasic_ascii {codepoints : List Nat} {b : UInt32} {s : EncodeState} (h : IsAscii s.output)
    (nonBasic : List Nat) : IsAscii (encodeNonBasic codepoints b nonBasic s).output := by
  induction nonBasic generalizing s with
  | nil => exact h
  | cons m nonBasic ih =>
      rw [encodeNonBasic]
      split
      · split
        · exact ih h
        · refine ih ?_
          show IsAscii (codepoints.foldl (encodeCodepoint b) _).output
          exact encodeCodepoints_ascii (by exact h) codepoints
      · exact h

theorem punycodeEncode_ascii {encoded : Bytes} (h : punycodeEncode t = .ok encoded) : IsAscii encoded := by
  rw [punycodeEncode] at h
  cases hcps : utf8DecodeAll t with
  | error e => rw [hcps] at h; cases h
  | ok cps =>
      rw [hcps] at h
      cases h
      have hbasic : IsAscii ((cps.filter isBasic).map UInt8.ofNat) := by
        intro b hb
        obtain ⟨cp, hcp, rfl⟩ := List.mem_map.1 hb
        have hcp := (List.mem_filter.1 hcp).2
        rw [isBasic, decide_eq_true_iff] at hcp
        exact ofNat_lt_iff (by omega)
      refine encodeNonBasic_ascii ?_ _
      show IsAscii (if _ then _ else _)
      split
      · exact .nil
      · exact isAscii_append.2 ⟨hbasic, by decide⟩

end Rad.Idna
