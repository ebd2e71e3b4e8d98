import Rad.Idna.Lemmas.Punycode

/-!
# Punycode

The decoder gives what the procedure gives, and undoes the encoder.
-/

namespace Rad.Idna

open Lib

/-! ## The decoder and the procedure -/

section

variable {input text rest : Bytes} {cps basic : List Nat} {n : Nat}

theorem encodeOutput_cons {cp : Nat} (hcp : isValidCodepoint cp = true) (n : Nat) (output : List Nat) :
    encodeOutput n (cp :: output) =
      if utf8CodepointSize cp > n then .error (.error (.errc .illegalByteSequence))
      else (encodeOutput (n - utf8CodepointSize cp) output).map (utf8Encode cp ++ ·) := by
  have hsize : utf8CodepointSize cp = (utf8Encode cp).length := utf8_lawful.codepointSize_eq hcp
  rw [encodeOutput, utf8EncodeInto]
  by_cases hroom : utf8CodepointSize cp > n
  · rw [if_pos hroom, if_pos hroom]
  · rw [if_neg hroom, if_neg hroom, hsize]
    cases hunits : utf8Encode cp with
    | nil => exact absurd hunits (utf8Encode_ne_nil cp)
    | cons b units => rfl

/-- The buffer holds the output, or there is an error. -/
theorem encodeOutput_iff (hcps : ∀ cp ∈ cps, isValidCodepoint cp = true) :
    encodeOutput n cps = .ok text ↔ (cps.map utf8CodepointSize).sum ≤ n ∧
      text = cps.flatMap utf8Encode ++ List.replicate (n - (cps.map utf8CodepointSize).sum) 0 := by
  induction cps generalizing n text with
  | nil => simp [encodeOutput, eq_comm]
  | cons cp cps ih =>
      obtain ⟨hcp, hcps⟩ := List.forall_mem_cons.1 hcps
      rw [encodeOutput_cons hcp, List.map_cons, List.sum_cons, List.flatMap_cons]
      split
      · exact ⟨nofun, fun h => absurd h.1 (by omega)⟩
      · rename_i hroom
        cases hrest : encodeOutput (n - utf8CodepointSize cp) cps with
        | error e =>
            refine ⟨nofun, fun ⟨hfits, _⟩ => ?_⟩
            have hok := (ih hcps).2 ⟨Nat.le_sub_of_add_le' hfits, rfl⟩
            rw [hrest] at hok
            cases hok
        | ok behind =>
            obtain ⟨hfits, rfl⟩ := (ih hcps).1 hrest
            rw [List.append_assoc, ← Nat.sub_sub]
            constructor
            · intro h
              cases h
              exact ⟨by omega, rfl⟩
            · rintro ⟨-, rfl⟩
              rfl

theorem size_pos (cp : Nat) : 1 ≤ utf8CodepointSize cp := by
  rw [utf8CodepointSize]
  split_ifs <;> decide

theorem length_le_size (cps : List Nat) : cps.length ≤ (cps.map utf8CodepointSize).sum := by
  induction cps with
  | nil => exact Nat.le_refl _
  | cons cp cps ih =>
      have := size_pos cp
      rw [List.length_cons, List.map_cons, List.sum_cons]
      omega

/-- The start of the loop. -/
def decodeStart (basic : List Nat) : DecodeState := { output := basic, outputBytesLen := UInt32.ofNat basic.length }

theorem decodeStart_ok (h : ∀ cp ∈ basic, cp ≤ 127) : (decodeStart basic).Ok where
  bias_le := show punycodeInitialBias.toNat ≤ 213 by decide
  len := by
    have hsizes : basic.map utf8CodepointSize = basic.map fun _ => 1 :=
      List.map_congr_left fun cp hcp => if_pos (h cp hcp)
    show UInt32.ofNat basic.length = UInt32.ofNat (basic.map utf8CodepointSize).sum
    simp [hsizes]
  valid cp hcp := by
    have := h cp hcp
    exact isValidCodepoint_iff.2 ⟨by omega, by omega⟩

/-- What the decoder gives out when there is no error. -/
theorem punycodeDecode_ok (h : punycodeDecode input = .ok text) :
    ∃ basic rest s, consumeBasicCodepoints input = .ok (basic, rest) ∧ decodeLoop (decodeStart basic) rest = .ok s ∧
      encodeOutput s.outputBytesLen.toNat s.output = .ok text := by
  rw [punycodeDecode] at h
  cases hbasic : consumeBasicCodepoints input with
  | error e =>
      rw [hbasic] at h
      cases h
  | ok found =>
      obtain ⟨basic, rest⟩ := found
      rw [hbasic] at h
      change (decodeLoop (decodeStart basic) rest).bind _ = _ at h
      cases hloop : decodeLoop (decodeStart basic) rest with
      | error e =>
          rw [hloop] at h
          cases h
      | ok s =>
          rw [hloop] at h
          exact ⟨basic, rest, s, rfl, hloop, h⟩

/-- With nothing in front of the last delimiter, there is none or it is the first character. -/
theorem delimiterFirst_iff (hne : upToDelimiter input ≠ []) : DelimiterFirst input ↔ rfcBasic input = [] := by
  constructor
  · intro h
    rw [rfcBasic, h]
    rfl
  · intro h
    have hlast : ¬(upToDelimiter input).getLast hne != 0x2d := List.rdropWhile_last_not _ _ hne
    rw [bne_iff_ne, not_not] at hlast
    have hsplit := List.dropLast_append_getLast hne
    rw [show (upToDelimiter input).dropLast = [] from h, hlast] at hsplit
    exact hsplit.symm

theorem consumeBasicCodepoints_ok (h : consumeBasicCodepoints input = .ok (basic, rest)) :
    (rfcBasic input).any (· > 127) = false ∧ basic = (rfcBasic input).map UInt8.toNat ∧
      (¬DelimiterFirst input → rest = rfcExtended input) := by
  rw [consumeBasicCodepoints] at h
  by_cases hnone : upToDelimiter input = []
  · rw [if_pos hnone] at h
    cases h
    have hbasic : rfcBasic input = [] := congrArg List.dropLast hnone
    refine ⟨by rw [hbasic]; rfl, by rw [hbasic]; rfl, fun _ => ?_⟩
    rw [rfcExtended, if_pos hbasic]
  rw [if_neg hnone] at h
  cases hascii : (rfcBasic input).any (· > 127) with
  | true =>
      cases (if_pos hascii).symm.trans h
  | false =>
      cases (if_neg (Bool.not_eq_true _ ▸ hascii)).symm.trans h
      refine ⟨rfl, rfl, fun hfirst => ?_⟩
      rw [rfcExtended, if_neg ((delimiterFirst_iff hnone).not.1 hfirst)]

theorem rfcDecode_delimiterFirst (h : DelimiterFirst input) : rfcDecode input = none := by
  have hinput : [0x2d] ++ behindDelimiter input = input := by
    rw [← show upToDelimiter input = [0x2d] from h]
    exact List.rdropWhile_append_rtakeWhile ..
  have hbasic : rfcBasic input = [] := congrArg List.dropLast h
  have hdigit : rfcDigit 0x2d = none := by decide
  rw [rfcDecode, rfcExtended, hbasic, if_pos rfl, ← hinput, List.singleton_append, List.mapM_cons, hdigit]
  rfl

/-- The text that is appended without an error is the text of the procedure just when the delimiter is not the first
character and the index was never above 32 bits. -/
theorem punycodeDecode_rfc_iff (h : punycodeDecode input = .ok text) :
    IsRfcText input text ↔ ¬DelimiterFirst input ∧ IndexFits input := by
  obtain ⟨basic, rest, s, hbasic, hloop, htext⟩ := punycodeDecode_ok h
  obtain ⟨hascii, rfl, hrest⟩ := consumeBasicCodepoints_ok hbasic
  have hlow : ∀ cp ∈ (rfcBasic input).map UInt8.toNat, cp ≤ 127 := by
    intro cp hcp
    obtain ⟨b, hb, rfl⟩ := List.mem_map.1 hcp
    have := List.any_eq_false.1 hascii b hb
    exact UInt8.le_iff_toNat_le.1 (UInt8.not_lt.1 (by simpa using this))
  have hs := decodeLoop_ok hloop (decodeStart_ok hlow)
  -- the count of the bytes was not taken modulo 2^32, or the buffer was too small
  rw [encodeOutput_iff hs.valid, hs.len, UInt32.toNat_ofNat'] at htext
  obtain ⟨hroom, rfl⟩ := htext
  have hfits : (s.output.map utf8CodepointSize).sum < 2 ^ 32 := Nat.lt_of_le_of_lt hroom (Nat.mod_lt _ (by decide))
  rw [Nat.mod_eq_of_lt hfits, Nat.sub_self, List.replicate_zero, List.append_nil]
  by_cases hfirst : DelimiterFirst input
  · refine iff_of_false ?_ fun h => h.1 hfirst
    rintro ⟨cps, hcps, -⟩
    rw [rfcDecode_delimiterFirst hfirst] at hcps
    cases hcps
  obtain ⟨digits, hdigits, hiff⟩ :=
    decodeLoop_iff hloop (Nat.lt_of_le_of_lt (length_le_size _) hfits) (decodeStart_ok hlow)
  rw [hrest hfirst] at hdigits
  have hdecode : rfcDecode input = punycode.decodeFrom 128 0 72 ((rfcBasic input).map UInt8.toNat) digits := by
    rw [rfcDecode, hascii, hdigits]
    rfl
  have hlen : ((rfcBasic input).map UInt8.toNat).length = (rfcBasic input).length := List.length_map _
  constructor
  · rintro ⟨cps, hcps, htext⟩
    rw [utf8DecodeAll_flatMap hs.valid] at htext
    cases htext
    refine ⟨hfirst, fun digits' hdigits' => ?_⟩
    rw [hdigits] at hdigits'
    cases hdigits'
    exact hlen ▸ hiff.1 (hdecode.symm.trans hcps)
  · rintro ⟨-, hindex⟩
    exact ⟨s.output, hdecode.trans (hiff.2 (hlen.symm ▸ hindex digits hdigits)), utf8DecodeAll_flatMap hs.valid⟩

/-- An index of 2^32 + 105: the text is a letter instead of an error. -/
theorem punycodeDecode_not_rfc : ¬∀ input text, punycodeDecode input = .ok text → IsRfcText input text := by
  intro h
  obtain ⟨cps, hcps, htext⟩ := h (ascii "l3902716a") [0xc3, 0xa9] (by decide +kernel)
  have hrfc : rfcDecode (ascii "l3902716a") = some [2 ^ 32 + 233] := by decide +kernel
  have hcode : utf8DecodeAll [0xc3, 0xa9] = .ok [233] := @utf8DecodeAll_flatMap [233] (by decide)
  rw [hrfc] at hcps
  rw [hcode] at htext
  cases hcps
  cases htext

theorem punycodeDecode_rfc_iff_umlaut :
    IsRfcText (ascii "tda") [0xc3, 0xbc] ↔ ¬DelimiterFirst (ascii "tda") ∧ IndexFits (ascii "tda") :=
  punycodeDecode_rfc_iff (by decide +kernel)

end

/-! ## The encoder and the procedure -/

open Bootstring

section

variable {b bias k q : UInt32} {s : EncodeState} {c : Cursor} {m n pos j : Nat} {cps nonBasic : List Nat}

theorem encodeNumber_eq (hbias : bias.toNat ≤ 213) (hk : k.toNat = 36 * (j + 1)) (hq : q.toNat * 10 ^ j < 2 ^ 32) :
    encodeNumber bias k q = (punycode.encodeNumber bias.toNat k.toNat q.toNat).map digitCharacter := by
  induction hn : q.toNat using Nat.strongRecOn generalizing k q j with
  | ind n ih =>
      subst hn
      have hthreshold := threshold_toNat (k := k) hbias
      have hpos : 0 < rfcThreshold bias.toNat k.toNat := punycode.threshold_pos _ _
      rw [encodeNumber, Bootstring.encodeNumber]
      simp only [UInt32.lt_iff_toNat_lt, hthreshold]
      by_cases hlast : q.toNat < rfcThreshold bias.toNat k.toNat
      · rw [if_pos hlast]
        refine Eq.trans ?_ (congrArg (List.map digitCharacter) (if_pos hlast).symm)
        rw [List.map_singleton, digitCharacter, UInt32.ofNat_toNat]
      · have hle := rfcThreshold_le bias.toNat k.toNat
        have hrest : (q - threshold bias k).toNat = q.toNat - rfcThreshold bias.toNat k.toNat := by
          rw [UInt32.toNat_sub_of_le, hthreshold]
          rw [UInt32.le_iff_toNat_le, hthreshold]
          omega
        have hbase := base_sub_threshold (k := k) hbias
        have hdigit : (threshold bias k + (q - threshold bias k) % (punycodeBase - threshold bias k)).toNat =
            rfcThreshold bias.toNat k.toNat +
              (q.toNat - rfcThreshold bias.toNat k.toNat) % (36 - rfcThreshold bias.toNat k.toNat) := by
          have hmod := Nat.mod_lt (q.toNat - rfcThreshold bias.toNat k.toNat)
            (show 0 < 36 - rfcThreshold bias.toNat k.toNat by omega)
          rw [UInt32.toNat_add, UInt32.toNat_mod, hthreshold, hrest, hbase]
          exact Nat.mod_eq_of_lt (by omega)
        have hdiv : ((q - threshold bias k) / (punycodeBase - threshold bias k)).toNat =
            (q.toNat - rfcThreshold bias.toNat k.toNat) / (36 - rfcThreshold bias.toNat k.toNat) := by
          rw [UInt32.toNat_div, hrest, hbase]
        have hten : (q.toNat - rfcThreshold bias.toNat k.toNat) / (36 - rfcThreshold bias.toNat k.toNat) * 10 ≤ q.toNat :=
          (Nat.mul_le_mul_left _ (show 10 ≤ 36 - rfcThreshold bias.toNat k.toNat by omega)).trans
            ((Nat.div_mul_le_self _ _).trans (Nat.sub_le _ _))
        have hfew : j < 10 := by
          by_contra hmany
          have hpow := Nat.pow_le_pow_right (show 0 < 10 by decide) (Nat.not_lt.1 hmany)
          have := Nat.mul_le_mul (show 1 ≤ q.toNat by omega) hpow
          omega
        have hk' : (k + punycodeBase).toNat = k.toNat + 36 := by
          rw [UInt32.toNat_add]
          exact Nat.mod_eq_of_lt (show k.toNat + 36 < 2 ^ 32 by omega)
        rw [if_neg hlast]
        refine Eq.trans ?_ (congrArg (List.map digitCharacter) (if_neg hlast).symm)
        rw [List.map_cons, digitCharacter]
        refine congrArg₂ List.cons ?_ ?_
        · exact congrArg encodeDigit (UInt32.ofNat_toNat.symm.trans (congrArg UInt32.ofNat hdigit))
        · rw [ih _ ?_ (show (k + punycodeBase).toNat = 36 * (j + 1 + 1) by omega) ?_ rfl, hk', hdiv]
          · rfl
          · rw [hdiv]
            omega
          · rw [hdiv, Nat.pow_succ, Nat.mul_comm (10 ^ j), ← Nat.mul_assoc]
            exact (Nat.mul_le_mul_right _ hten).trans_lt hq

/-! ### The passes -/

/-- The variables of the encoder in front of the position `pos` in the pass over the code point `m`. -/
structure Follows (b : UInt32) (s : EncodeState) (c : Cursor) (m pos : Nat) : Prop where
  here : c.At m pos
  n : s.n.toNat = m
  delta : s.delta.toNat + c.i = c.index (m, pos)
  bias : s.bias.toNat = c.bias
  bias_le : s.bias.toNat ≤ 213
  h : s.h.toNat = c.len
  first : c.i = 0 ↔ s.h = b
  basic : b.toNat ≤ c.len

theorem Follows.h_succ (h : Follows b s c m pos) (hlen : c.len ≤ 3000) : (s.h + 1).toNat = c.len + 1 := by
  rw [UInt32.toNat_add, h.h]
  exact Nat.mod_eq_of_lt (show c.len + 1 < 2 ^ 32 by omega)

theorem index_lt (c : Cursor) (hm : m ≤ 0x110000) (hlen : c.len ≤ 3000) (hpos : pos ≤ 3000) : c.index (m, pos) < 2 ^ 32 := by
  have hmul : (m - c.n) * (c.len + 1) ≤ 0x110000 * 3001 :=
    Nat.mul_le_mul ((Nat.sub_le _ _).trans hm) (Nat.succ_le_succ hlen)
  show (m - c.n) * (c.len + 1) + pos < 2 ^ 32
  omega

theorem Follows.skip (h : Follows b s c m pos) (hm : m ≤ 0x10ffff) (hlen : c.len ≤ 3000) (hpos : pos + 1 ≤ c.len) :
    Follows b { s with delta := s.delta + 1 } c m (pos + 1) where
  here := h.here.skip hpos
  n := h.n
  delta := by
    have hlt := index_lt c (show m ≤ 0x110000 by omega) hlen (show pos + 1 ≤ 3000 by omega)
    have hindex : c.index (m, pos + 1) = c.index (m, pos) + 1 := rfl
    have hdelta := h.delta
    show (s.delta + 1).toNat + c.i = _
    rw [UInt32.toNat_add, UInt32.toNat_one, Nat.mod_eq_of_lt (by omega)]
    omega
  bias := h.bias
  bias_le := h.bias_le
  h := h.h
  first := h.first
  basic := h.basic

/-- Behind an insertion. -/
def EncodeState.inserted (s : EncodeState) (b : UInt32) : EncodeState where
  n := s.n
  delta := 0
  bias := adapt s.delta (s.h + 1) (s.h == b)
  h := s.h + 1
  output := s.output ++ encodeNumber s.bias punycodeBase s.delta

theorem Follows.insert (h : Follows b s c m pos) (hlen : c.len ≤ 3000) :
    Follows b (s.inserted b) (c.advance punycode (m, pos)) m (pos + 1) where
  here := h.here.advance
  n := h.n
  delta := by
    show (0 : UInt32).toNat + (pos + 1) = (m - m) * (c.len + 1 + 1) + (pos + 1)
    rw [Nat.sub_self, Nat.zero_mul]
    rfl
  bias := by
    have hfirst : (s.h == b) = decide (c.i = 0) := by
      rw [Bool.eq_iff_iff, beq_iff_eq, decide_eq_true_eq]
      exact h.first.symm
    have hdelta := h.delta
    refine (adapt_toNat _ _ _).1.trans ?_
    rw [h.h_succ hlen, hfirst, show s.delta.toNat = c.index (m, pos) - c.i by omega]
    rfl
  bias_le := (adapt_toNat _ _ _).2
  h := h.h_succ hlen
  first := by
    refine iff_of_false (Nat.succ_ne_zero _) fun hb => ?_
    have hbasic := h.basic
    rw [← show s.h + 1 = b from hb, h.h_succ hlen] at hbasic
    omega
  basic := h.basic.trans (Nat.le_succ _)

theorem Follows.output (h : Follows b s c m pos) (es : List (Nat × Nat)) :
    (s.inserted b).output ++ (punycode.encodeInsertions (c.advance punycode (m, pos)) es).map digitCharacter =
      s.output ++ (punycode.encodeInsertions c ((m, pos) :: es)).map digitCharacter := by
  have hdelta := h.delta
  have hnumber : encodeNumber s.bias punycodeBase s.delta =
      (punycode.encodeNumber c.bias punycode.base (c.index (m, pos) - c.i)).map digitCharacter := by
    rw [encodeNumber_eq (j := 0) h.bias_le rfl (by rw [Nat.pow_zero, Nat.mul_one]; exact s.delta.toNat_lt), h.bias,
      show s.delta.toNat = c.index (m, pos) - c.i by omega]
    rfl
  show (s.output ++ encodeNumber s.bias punycodeBase s.delta) ++ _ = _
  rw [hnumber, List.append_assoc, encodeInsertions, List.map_append]

/-- The pass over the code point `m`. -/
theorem foldl_encodeCodepoint (h : Follows b s c m pos) (hm : m ≤ 0x10ffff)
    (hlen : c.len = pos + (cps.filter (· < m)).length) (hsize : pos + cps.length ≤ 3000) :
    (cps.foldl (encodeCodepoint b) s).output =
        s.output ++ (punycode.encodeInsertions c (insertionsOf m pos cps)).map digitCharacter ∧
      Follows b (cps.foldl (encodeCodepoint b) s) (c.after punycode (insertionsOf m pos cps)) m
        (pos + (cps.filter (· ≤ m)).length) := by
  induction cps generalizing s c pos with
  | nil => exact ⟨(List.append_nil _).symm, h⟩
  | cons x cps ih =>
      have hfilter := List.length_filter_le (· < m) cps
      rw [List.length_cons] at hsize
      rw [List.foldl_cons, encodeCodepoint, h.n, insertionsOf]
      rcases Nat.lt_trichotomy x m with hlt | rfl | hgt
      · rw [List.filter_cons_of_pos (by simpa using hlt), List.length_cons] at hlen
        rw [if_pos hlt, if_pos hlt, List.filter_cons_of_pos (by simpa using Nat.le_of_lt hlt), List.length_cons,
          ← Nat.add_assoc, Nat.add_right_comm]
        exact ih (h.skip hm (by omega) (by omega)) (by omega) (by omega)
      · rw [List.filter_cons_of_neg (by simp)] at hlen
        rw [if_neg (Nat.lt_irrefl _), if_pos rfl, if_neg (Nat.lt_irrefl _), if_pos rfl,
          List.filter_cons_of_pos (by simp), List.length_cons, ← Nat.add_assoc, Nat.add_right_comm, ← h.output]
        exact ih (h.insert (by omega)) (by show c.len + 1 = _; omega) (by omega)
      · rw [List.filter_cons_of_neg (by simpa using Nat.le_of_lt hgt)] at hlen
        rw [if_neg (by omega), if_neg (by omega), if_neg (by omega), if_neg (by omega),
          List.filter_cons_of_neg (by simpa using hgt)]
        exact ih h hlen (by omega)

/-- From a number on to the next one of the list. -/
theorem Follows.forward (h : Follows b s c n 0) (hle : n ≤ m) (hm : m ≤ 0x10ffff) (hlen : c.len ≤ 3000) :
    Follows b { s with delta := s.delta + (UInt32.ofNat m - s.n) * (s.h + 1), n := UInt32.ofNat m } c m 0 where
  here := h.here.mono hle
  n := UInt32.toNat_ofNat_of_lt' (show m < 2 ^ 32 by omega)
  delta := by
    have hm' : (UInt32.ofNat m).toNat = m := UInt32.toNat_ofNat_of_lt' (show m < 2 ^ 32 by omega)
    have hsteps : (UInt32.ofNat m - s.n).toNat = m - n := by
      rw [UInt32.toNat_sub_of_le _ _ (UInt32.le_iff_toNat_le.2 (by rw [hm', h.n]; exact hle)), hm', h.n]
    have hlt := index_lt c (show m ≤ 0x110000 by omega) hlen (Nat.zero_le _)
    have hindex : c.index (m, 0) = (m - n) * (c.len + 1) + c.index (n, 0) := by
      show (m - c.n) * (c.len + 1) = (m - n) * (c.len + 1) + (n - c.n) * (c.len + 1)
      rw [← Nat.add_mul, Nat.sub_add_sub_cancel hle h.here.n_le]
    have hdelta := h.delta
    show (s.delta + (UInt32.ofNat m - s.n) * (s.h + 1)).toNat + c.i = _
    rw [UInt32.toNat_add, UInt32.toNat_mul, hsteps, h.h_succ hlen, Nat.mod_eq_of_lt (a := (m - n) * (c.len + 1)) (by omega),
      Nat.mod_eq_of_lt (by omega)]
    omega
  bias := h.bias
  bias_le := h.bias_le
  h := h.h
  first := h.first
  basic := h.basic

/-- Behind a pass. -/
theorem Follows.next (h : Follows b s c m c.len) (hm : m ≤ 0x10ffff) (hlen : c.len ≤ 3000) :
    Follows b { s with delta := s.delta + 1, n := s.n + 1 } c (m + 1) 0 where
  here := h.here.next
  n := by
    show (s.n + 1).toNat = m + 1
    rw [UInt32.toNat_add, h.n]
    exact Nat.mod_eq_of_lt (show m + 1 < 2 ^ 32 by omega)
  delta := by
    have hlt := index_lt c (show m + 1 ≤ 0x110000 by omega) hlen (Nat.zero_le _)
    have hindex : c.index (m + 1, 0) = c.index (m, c.len) + 1 := by
      show (m + 1 - c.n) * (c.len + 1) = (m - c.n) * (c.len + 1) + c.len + 1
      rw [Nat.succ_sub h.here.n_le, Nat.succ_mul, Nat.add_assoc]
    have hdelta := h.delta
    show (s.delta + 1).toNat + c.i = _
    rw [UInt32.toNat_add, UInt32.toNat_one, Nat.mod_eq_of_lt (by omega)]
    omega
  bias := h.bias
  bias_le := h.bias_le
  h := h.h
  first := h.first
  basic := h.basic

/-- The loop ends with a position for each code point, and writes the insertions. -/
theorem encodeNonBasic_eq (h : Follows b s c n 0) (hlen : c.len = (cps.filter (· < n)).length)
    (hsize : cps.length ≤ 3000) (hsorted : nonBasic.Pairwise (· ≤ ·)) (hmem : ∀ x ∈ cps, n ≤ x → x ∈ nonBasic)
    (hsub : ∀ m ∈ nonBasic, m ∈ cps ∧ m ≤ 0x10ffff) :
    (encodeNonBasic cps b nonBasic s).output =
        s.output ++ (punycode.encodeInsertions c (insertions cps n nonBasic)).map digitCharacter ∧
      (encodeNonBasic cps b nonBasic s).h.toNat = cps.length := by
  induction nonBasic generalizing s c n with
  | nil =>
      have hall : cps.filter (· < n) = cps := by
        refine List.filter_eq_self.2 fun x hx => ?_
        simpa using Nat.not_le.1 fun hle => List.not_mem_nil (hmem x hx hle)
      exact ⟨(List.append_nil _).symm, h.h.trans (hlen.trans (congrArg _ hall))⟩
  | cons m nonBasic ih =>
      obtain ⟨⟨hm, hmax⟩, hsub⟩ := List.forall_mem_cons.1 hsub
      have hfilter := List.length_filter_le (· < n) cps
      rw [encodeNonBasic, h.h, h.n, insertions]
      by_cases hloop : c.len < cps.length
      · rw [if_pos hloop]
        by_cases hlt : m < n
        · rw [if_pos hlt, if_pos hlt]
          exact ih h hlen hsorted.of_cons (fun x hx hle => (List.mem_cons.1 (hmem x hx hle)).resolve_left (by omega)) hsub
        · have hge := Nat.not_lt.1 hlt
          rw [if_neg hlt, if_neg hlt]
          rw [filter_lt_eq hge hsorted hmem] at hlen
          have hlen' := hlen.trans (Nat.zero_add _).symm
          have hforward := h.forward hge hmax (by omega)
          obtain ⟨houtput, hpass⟩ := foldl_encodeCodepoint hforward hmax hlen' (by omega)
          obtain ⟨-, -, hbehind⟩ := ordered_insertionsOf (B := punycode) hforward.here hlen'
          rw [← hbehind] at hpass
          rw [Nat.zero_add] at hbehind
          have hfilter' := List.length_filter_le (· ≤ m) cps
          have hnext := hpass.next hmax (by omega)
          rw [filter_le_eq] at hbehind
          obtain ⟨hrest, hend⟩ := ih hnext hbehind hsorted.of_cons
            (fun x hx hle => (List.mem_cons.1 (hmem x hx (by omega))).resolve_left (by omega)) hsub
          refine ⟨hrest.trans ?_, hend⟩
          rw [encodeInsertions_append, List.map_append, ← List.append_assoc]
          exact congrArg (· ++ _) houtput
      · -- there is a position for each code point already
        rw [if_neg hloop]
        have hall : ∀ x ∈ cps, x < n := by
          simpa using List.length_filter_eq_length_iff.1 (show (cps.filter (· < n)).length = cps.length by omega)
        have hnone : insertions cps n (m :: nonBasic) = [] :=
          insertions_eq_nil (List.forall_mem_cons.2 ⟨hall m hm, fun x hx => hall x (hsub x hx).1⟩)
        rw [insertions] at hnone
        rw [hnone]
        exact ⟨(List.append_nil _).symm, by rw [h.h]; omega⟩

end

/-! ## The round trip -/

section

variable {s extended : Bytes} {cps : List Nat}

/-- The basic code points of a text and the delimiter. -/
def basicPart (cps : List Nat) : Bytes :=
  let basic := (cps.filter isBasic).map UInt8.ofNat
  if basic = [] then [] else basic ++ ascii "-"

/-- The insertions of the other code points, in digits. -/
def extendedDigits (cps : List Nat) : List Nat :=
  punycode.encodeInsertions ⟨128, 0, (cps.filter isBasic).length, 72⟩
    (insertions cps 128 ((cps.filter fun cp => !isBasic cp).mergeSort (· ≤ ·)))

theorem filter_isBasic (cps : List Nat) : cps.filter isBasic = cps.filter (· < 128) :=
  List.filter_congr fun _ _ => decide_eq_decide.2 Nat.lt_succ_iff.symm

theorem sorted_nonBasic (cps : List Nat) : ((cps.filter fun cp => !isBasic cp).mergeSort (· ≤ ·)).Pairwise (· ≤ ·) := by
  have h : ((cps.filter fun cp => !isBasic cp).mergeSort (· ≤ ·)).Pairwise fun a b => decide (a ≤ b) = true :=
    List.pairwise_mergeSort (fun a b c => by simpa using Nat.le_trans) (fun a b => by simpa using Nat.le_total a b) _
  simpa using h

theorem mem_nonBasic {cp : Nat} :
    cp ∈ (cps.filter fun cp => !isBasic cp).mergeSort (· ≤ ·) ↔ cp ∈ cps ∧ 128 ≤ cp := by
  rw [List.mem_mergeSort, List.mem_filter]
  simp [isBasic, Nat.lt_iff_add_one_le]

theorem ordered_nonBasic (cps : List Nat) :
    punycode.Ordered ⟨128, 0, (cps.filter isBasic).length, 72⟩
      (insertions cps 128 ((cps.filter fun cp => !isBasic cp).mergeSort (· ≤ ·))) :=
  ordered_insertions ⟨Nat.le_refl _, Nat.zero_le _, Nat.zero_le _⟩
    (congrArg List.length (filter_isBasic cps)) (sorted_nonBasic cps) fun _ hc hle => mem_nonBasic.2 ⟨hc, hle⟩

theorem applyInsertions_nonBasic (cps : List Nat) :
    applyInsertions (cps.filter isBasic)
      (insertions cps 128 ((cps.filter fun cp => !isBasic cp).mergeSort (· ≤ ·))) = cps := by
  rw [filter_isBasic]
  exact applyInsertions_insertions (sorted_nonBasic cps) fun _ hc hle => mem_nonBasic.2 ⟨hc, hle⟩

/-- What the encoder writes. -/
theorem punycodeEncode_eq (hcps : utf8DecodeAll s = .ok cps) (hsize : cps.length ≤ 3000) :
    punycodeEncode s = .ok (basicPart cps ++ (extendedDigits cps).map digitCharacter) := by
  have hvalid := utf8DecodeAll_valid hcps
  have hbasic : (UInt32.ofNat ((cps.filter isBasic).map UInt8.ofNat).length).toNat = (cps.filter isBasic).length := by
    have := List.length_filter_le isBasic cps
    rw [List.length_map, UInt32.toNat_ofNat_of_lt' (show _ < 2 ^ 32 by omega)]
  have hfollows : Follows (UInt32.ofNat ((cps.filter isBasic).map UInt8.ofNat).length)
      { h := UInt32.ofNat ((cps.filter isBasic).map UInt8.ofNat).length, output := basicPart cps }
      ⟨128, 0, (cps.filter isBasic).length, 72⟩ 128 0 :=
    { here := ⟨Nat.le_refl _, Nat.zero_le _, Nat.zero_le _⟩
      n := rfl
      delta := by simp [Cursor.index]
      bias := rfl
      bias_le := show punycodeInitialBias.toNat ≤ 213 by decide
      h := hbasic
      first := iff_of_true rfl rfl
      basic := Nat.le_of_eq hbasic }
  have houtput := (encodeNonBasic_eq hfollows (congrArg List.length (filter_isBasic cps)) hsize (sorted_nonBasic cps)
    (fun x hx hle => mem_nonBasic.2 ⟨hx, hle⟩) fun m hm =>
      ⟨(mem_nonBasic.1 hm).1, (isValidCodepoint_iff.1 (hvalid m (mem_nonBasic.1 hm).1)).1⟩).1
  rw [punycodeEncode, hcps]
  exact congrArg Except.ok houtput

theorem digitCharacter_range {d : Nat} (h : d < 36) :
    0x61 ≤ digitCharacter d ∧ digitCharacter d ≤ 0x7a ∨ 0x30 ≤ digitCharacter d ∧ digitCharacter d ≤ 0x39 := by
  have hall : ∀ d < 36, 0x61 ≤ digitCharacter d ∧ digitCharacter d ≤ 0x7a ∨
      0x30 ≤ digitCharacter d ∧ digitCharacter d ≤ 0x39 := by
    decide +kernel
  exact hall d h

theorem extendedDigits_lt (cps : List Nat) : ∀ d ∈ extendedDigits cps, d < 36 := encodeInsertions_lt _ _

theorem basicPart_ascii (cps : List Nat) : IsAscii (basicPart cps) := by
  rw [basicPart]
  split
  · exact IsAscii.nil
  · refine isAscii_append.2 ⟨fun b hb => ?_, by decide⟩
    obtain ⟨cp, hcp, rfl⟩ := List.mem_map.1 hb
    exact ofNat_lt_iff (Nat.lt_succ_of_le (of_decide_eq_true (List.mem_filter.1 hcp).2))

/-- The delimiter in front of a text without one is the last delimiter. -/
theorem upToDelimiter_append (front : Bytes) (h : ∀ c ∈ extended, c ≠ 0x2d) :
    upToDelimiter (front ++ [0x2d] ++ extended) = front ++ [0x2d] ∧
      behindDelimiter (front ++ [0x2d] ++ extended) = extended := by
  have hrev : ∀ c ∈ extended.reverse, (c != 0x2d) = true := fun c hc => bne_iff_ne.2 (h c (List.mem_reverse.1 hc))
  constructor
  · rw [upToDelimiter, List.rdropWhile, List.reverse_append, List.dropWhile_append_of_pos hrev, ← List.rdropWhile]
    exact List.rdropWhile_concat_neg _ _ _ (by decide)
  · rw [behindDelimiter, List.rtakeWhile, List.reverse_append, List.takeWhile_append_of_pos hrev, List.reverse_append]
    simp

theorem consumeBasicCodepoints_encoded (h : ∀ c ∈ extended, c ≠ 0x2d) :
    consumeBasicCodepoints (basicPart cps ++ extended) = .ok (cps.filter isBasic, extended) := by
  rw [basicPart]
  by_cases hbasic : (cps.filter isBasic).map UInt8.ofNat = []
  · have hnone : upToDelimiter extended = [] := List.rdropWhile_eq_nil_iff.2 fun c hc => bne_iff_ne.2 (h c hc)
    rw [if_pos hbasic, List.nil_append, consumeBasicCodepoints, if_pos hnone, List.map_eq_nil_iff.1 hbasic]
  · obtain ⟨hup, hbehind⟩ := upToDelimiter_append ((cps.filter isBasic).map UInt8.ofNat) h
    have hlow : ∀ cp ∈ cps.filter isBasic, cp ≤ 127 := fun cp hcp => of_decide_eq_true (List.mem_filter.1 hcp).2
    have hascii : ((cps.filter isBasic).map UInt8.ofNat).any (· > 127) = false := by
      rw [List.any_eq_false]
      intro b hb
      obtain ⟨cp, hcp, rfl⟩ := List.mem_map.1 hb
      have := ofNat_lt_iff (Nat.lt_succ_of_le (hlow cp hcp))
      rw [decide_eq_true_eq]
      exact UInt8.not_lt.2 (UInt8.le_iff_toNat_le.2 (Nat.le_of_lt_succ (UInt8.lt_iff_toNat_lt.1 this)))
    have hnumbers : ((cps.filter isBasic).map UInt8.ofNat).map UInt8.toNat = cps.filter isBasic := by
      rw [List.map_map]
      refine (List.map_congr_left fun cp hcp => ?_).trans (List.map_id _)
      have := hlow cp hcp
      exact UInt8.toNat_ofNat_of_lt' (show cp < 2 ^ 8 by omega)
    rw [if_neg hbasic, show ascii "-" = [0x2d] from rfl, consumeBasicCodepoints, hup, hbehind,
      if_neg (List.append_ne_nil_of_right_ne_nil _ (List.cons_ne_nil _ _)), List.dropLast_concat, hascii, hnumbers]
    rfl

theorem size_le (cps : List Nat) : (cps.map utf8CodepointSize).sum ≤ 4 * cps.length := by
  induction cps with
  | nil => exact Nat.le_refl _
  | cons cp cps ih =>
      have hcp : utf8CodepointSize cp ≤ 4 := by
        rw [utf8CodepointSize]
        split_ifs <;> decide
      rw [List.map_cons, List.sum_cons, List.length_cons]
      omega

theorem punycodeDecode_encode (hs : Utf8WellFormed s) (hsize : ∀ cps, utf8DecodeAll s = .ok cps → cps.length ≤ 3000) :
    ∃ cps extended, utf8DecodeAll s = .ok cps ∧ punycodeEncode s = .ok (basicPart cps ++ extended) ∧
      IsAscii (basicPart cps) ∧ (∀ c ∈ extended, 0x61 ≤ c ∧ c ≤ 0x7a ∨ 0x30 ≤ c ∧ c ≤ 0x39) ∧
      punycodeDecode (basicPart cps ++ extended) = .ok s := by
  obtain ⟨cps, hcps⟩ := utf8DecodeAll_of_wellFormed hs
  have hlen := hsize cps hcps
  have hrange : ∀ c ∈ (extendedDigits cps).map digitCharacter,
      0x61 ≤ c ∧ c ≤ 0x7a ∨ 0x30 ≤ c ∧ c ≤ 0x39 := by
    intro c hc
    obtain ⟨d, hd, rfl⟩ := List.mem_map.1 hc
    exact digitCharacter_range (extendedDigits_lt cps d hd)
  refine ⟨cps, _, hcps, punycodeEncode_eq hcps hlen, basicPart_ascii cps, hrange, ?_⟩
  have hvalid := utf8DecodeAll_valid hcps
  have hlow : ∀ cp ∈ cps.filter isBasic, cp ≤ 127 := fun cp hcp => of_decide_eq_true (List.mem_filter.1 hcp).2
  have hordered := ordered_nonBasic cps
  have hcount := length_applyInsertions (cps.filter isBasic) rfl hordered
  rw [applyInsertions_nonBasic] at hcount
  have hindex : punycode.StaysBelow (2 ^ 32) 0 (cps.filter isBasic).length 72 (extendedDigits cps) :=
    staysBelow_encodeInsertions (n := 0x10ffff) hordered
      (fun e he => (isValidCodepoint_iff.1 (hvalid _ (mem_nonBasic.1 (mem_insertions he)).1)).1)
      (hcount.symm.le.trans hlen) (by decide)
  have hdecode : punycode.decodeFrom 128 0 72 (cps.filter isBasic) (extendedDigits cps) = some cps :=
    (decodeFrom_encodeInsertions rfl hordered).trans (congrArg some (applyInsertions_nonBasic cps))
  obtain ⟨state, hloop, houtput⟩ := decodeLoop_complete (s := decodeStart (cps.filter isBasic)) (decodeStart_ok hlow)
    (extendedDigits_lt cps) hindex hdecode hvalid (by omega)
  have hroom := (decodeLoop_ok hloop (decodeStart_ok hlow)).len
  have hsizes := size_le cps
  have hnot : ∀ c ∈ (extendedDigits cps).map digitCharacter, c ≠ 0x2d := by
    rintro c hc rfl
    exact absurd (hrange _ hc) (by decide)
  rw [houtput] at hroom
  rw [punycodeDecode, consumeBasicCodepoints_encoded hnot]
  change (decodeLoop (decodeStart _) _).bind _ = _
  rw [hloop]
  change encodeOutput state.outputBytesLen.toNat state.output = .ok s
  rw [houtput, hroom, UInt32.toNat_ofNat_of_lt' (show _ < 2 ^ 32 by omega), encodeOutput_iff hvalid, Nat.sub_self,
    List.replicate_zero, List.append_nil]
  exact ⟨Nat.le_refl _, (utf8DecodeAll_ok hcps).1.symm⟩

/-- `bücher`, where basic code points stand before and behind the other one. -/
theorem punycodeDecode_encode_umlaut :
    punycodeEncode (0x62 :: 0xc3 :: 0xbc :: ascii "cher") = .ok (ascii "bcher-kva") ∧
      punycodeDecode (ascii "bcher-kva") = .ok (0x62 :: 0xc3 :: 0xbc :: ascii "cher") := by
  have hdecode : utf8DecodeAll (0x62 :: 0xc3 :: 0xbc :: ascii "cher") = .ok [0x62, 0xfc, 0x63, 0x68, 0x65, 0x72] :=
    @utf8DecodeAll_flatMap [0x62, 0xfc, 0x63, 0x68, 0x65, 0x72] (by decide)
  have hencode : punycodeEncode (0x62 :: 0xc3 :: 0xbc :: ascii "cher") = .ok (ascii "bcher-kva") := by decide +kernel
  obtain ⟨cps, extended, -, h, -, -, htext⟩ := punycodeDecode_encode (utf8DecodeAll_ok hdecode).2 fun cps hcps => by
    rw [hdecode] at hcps
    cases hcps
    decide
  have hbytes := Except.ok.inj (hencode.symm.trans h)
  rw [← hbytes] at htext
  exact ⟨hencode, htext⟩

end

end Rad.Idna
