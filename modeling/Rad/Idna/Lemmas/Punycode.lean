import Rad.Idna.Lemmas.Labels
import Rad.Idna.Punycode

/-!
# The numbers of Punycode

The variables of 32 bits hold the numbers of the procedure as long as these fit.
-/

namespace Rad.Idna

open Lib

/-! ## The parameters -/

section

variable {bias k w w' i i' q delta numpoints out x : UInt32} {j total n : Nat}

theorem threshold_toNat (hbias : bias.toNat ≤ 213) : (threshold bias k).toNat = rfcThreshold bias.toNat k.toNat := by
  have hsum : (bias + punycodeTmax).toNat = bias.toNat + 26 := by
    rw [UInt32.toNat_add]
    exact Nat.mod_eq_of_lt (show bias.toNat + 26 < 2 ^ 32 by omega)
  simp only [threshold, rfcThreshold, ge_iff_le, UInt32.le_iff_toNat_le, hsum]
  split
  · rfl
  split
  · rfl
  · exact UInt32.toNat_sub_of_le _ _ (UInt32.le_iff_toNat_le.2 (by omega))

theorem rfcThreshold_le (bias k : Nat) : rfcThreshold bias k ≤ 26 := by
  rw [rfcThreshold]
  split_ifs <;> omega

theorem base_sub_threshold (hbias : bias.toNat ≤ 213) :
    (punycodeBase - threshold bias k).toNat = 36 - rfcThreshold bias.toNat k.toNat := by
  have hle := rfcThreshold_le bias.toNat k.toNat
  rw [UInt32.toNat_sub_of_le, threshold_toNat hbias]
  · rfl
  · rw [UInt32.le_iff_toNat_le, threshold_toNat hbias]
    exact hle.trans (by decide)

theorem adaptLoop_toNat (hj : j ≤ 5) (hk : k.toNat = 36 * j) (hdelta : delta.toNat * 35 ^ j < 2 ^ 32) :
    rfcAdaptLoop delta.toNat k.toNat = ((adaptLoop delta k).1.toNat, (adaptLoop delta k).2.toNat) ∧
      (adaptLoop delta k).1.toNat ≤ 455 ∧ (adaptLoop delta k).2.toNat ≤ 180 := by
  induction delta, k using adaptLoop.induct generalizing j with
  | case1 delta k hgt ih =>
      have hgt' : 455 < delta.toNat := UInt32.lt_iff_toNat_lt.1 hgt
      -- five divisions are enough
      have hfew : j ≤ 4 := by
        by_contra hmany
        obtain rfl : j = 5 := by omega
        omega
      have hk' : (k + punycodeBase).toNat = 36 * (j + 1) := by
        rw [UInt32.toNat_add, hk]
        exact Nat.mod_eq_of_lt (show 36 * j + 36 < 2 ^ 32 by omega)
      have hdiv : (delta / (punycodeBase - punycodeTmin)).toNat = delta.toNat / 35 := UInt32.toNat_div ..
      have hih := ih (show j + 1 ≤ 5 by omega) hk' (by
        refine Nat.lt_of_le_of_lt ?_ hdelta
        rw [hdiv, Nat.pow_succ, Nat.mul_comm (35 ^ j), ← Nat.mul_assoc]
        exact Nat.mul_le_mul_right _ (Nat.div_mul_le_self _ _))
      rw [adaptLoop, if_pos hgt, rfcAdaptLoop, if_pos (by omega)]
      rwa [hdiv, hk', Nat.mul_succ, ← hk] at hih
  | case2 delta k hle =>
      have hle' : delta.toNat ≤ 455 := Nat.not_lt.1 fun h => hle (UInt32.lt_iff_toNat_lt.2 h)
      rw [adaptLoop, if_neg hle, rfcAdaptLoop, if_neg (by omega)]
      exact ⟨rfl, hle', by show k.toNat ≤ 180; omega⟩

theorem adapt_toNat (delta numpoints : UInt32) (first : Bool) :
    (adapt delta numpoints first).toNat = rfcAdapt delta.toNat numpoints.toNat first ∧
      (adapt delta numpoints first).toNat ≤ 213 := by
  let halved := if first then delta / punycodeDamp else delta / 2
  have hhalved : halved.toNat = if first then delta.toNat / 700 else delta.toNat / 2 := by
    cases first <;> exact UInt32.toNat_div ..
  have hsmall : halved.toNat ≤ (2 ^ 32 - 1) / 2 := by
    have := delta.toNat_lt
    rw [hhalved]
    split <;> omega
  have hsum : (halved + halved / numpoints).toNat = halved.toNat + halved.toNat / numpoints.toNat := by
    have := Nat.div_le_self halved.toNat numpoints.toNat
    rw [UInt32.toNat_add, UInt32.toNat_div]
    exact Nat.mod_eq_of_lt (by omega)
  obtain ⟨hloop, hdelta, hk⟩ := adaptLoop_toNat (j := 0) (k := 0) (Nat.zero_le 5) rfl
    ((Nat.mul_one _).trans_lt (halved + halved / numpoints).toNat_lt)
  rw [hsum, hhalved, UInt32.toNat_zero] at hloop
  -- the last quotient
  have hlast {d k : UInt32} (hd : d.toNat ≤ 455) (hk : k.toNat ≤ 180) :
      (k + (punycodeBase - punycodeTmin + 1) * d / (d + punycodeSkew)).toNat = k.toNat + 36 * d.toNat / (d.toNat + 38) ∧
        36 * d.toNat / (d.toNat + 38) ≤ 33 := by
    have hquotient : 36 * d.toNat / (d.toNat + 38) ≤ 33 :=
      Nat.le_of_lt_succ ((Nat.div_lt_iff_lt_mul (Nat.succ_pos _)).2 (by omega))
    have hmul : ((punycodeBase - punycodeTmin + 1) * d).toNat = 36 * d.toNat := by
      rw [UInt32.toNat_mul]
      exact Nat.mod_eq_of_lt (show 36 * d.toNat < 2 ^ 32 by omega)
    have hadd : (d + punycodeSkew).toNat = d.toNat + 38 := by
      rw [UInt32.toNat_add]
      exact Nat.mod_eq_of_lt (show d.toNat + 38 < 2 ^ 32 by omega)
    refine ⟨?_, hquotient⟩
    rw [UInt32.toNat_add, UInt32.toNat_div, hmul, hadd]
    exact Nat.mod_eq_of_lt (by omega)
  obtain ⟨hadapt, hquotient⟩ := hlast hdelta hk
  have heq : (adapt delta numpoints first).toNat = _ := hadapt
  rw [heq, rfcAdapt, hloop]
  exact ⟨rfl, by omega⟩

theorem multiplyAndCheckOverflow_iff :
    multiplyAndCheckOverflow out x = some w' ↔ out.toNat * x.toNat < 2 ^ 32 ∧ w' = out * x := by
  have hout := out.toNat_lt
  have hx := x.toNat_lt
  have hwide : out.toNat * x.toNat < 2 ^ 64 := lt_of_lt_of_eq (Nat.mul_lt_mul'' hout hx) (Nat.pow_add 2 32 32).symm
  have hiff : (out * x).toUInt64 = out.toUInt64 * x.toUInt64 ↔ out.toNat * x.toNat < 2 ^ 32 := by
    rw [← UInt64.toNat_inj, UInt64.toNat_mul, UInt32.toNat_toUInt64, UInt32.toNat_toUInt64, UInt32.toNat_toUInt64,
      UInt32.toNat_mul, Nat.mod_eq_of_lt hwide]
    exact ⟨fun h => h ▸ Nat.mod_lt _ (by decide), Nat.mod_eq_of_lt⟩
  rw [multiplyAndCheckOverflow, Option.ite_none_right_eq_some, hiff, Option.some_inj, eq_comm]

theorem addAndCheckOverflow_iff :
    addAndCheckOverflow out x = some w' ↔ out.toNat + x.toNat < 2 ^ 32 ∧ w' = out + x := by
  have hout := out.toNat_lt
  have hx := x.toNat_lt
  have hiff : out ≤ out + x ↔ out.toNat + x.toNat < 2 ^ 32 := by
    rw [UInt32.le_iff_toNat_le, UInt32.toNat_add]
    omega
  rw [addAndCheckOverflow, Option.ite_none_right_eq_some, hiff, Option.some_inj, eq_comm]

/-! ## Digits -/

variable {c : UInt8} {d : Nat} {input rest : Bytes} {digits : List Nat}

theorem rfcDigit_of_decodeDigit {digit : UInt32} (h : decodeDigit c = some digit) : rfcDigit c = some digit.toNat := by
  have hall : ∀ n < 256, (decodeDigit (UInt8.ofNat n)).all fun d => rfcDigit (UInt8.ofNat n) == some d.toNat := by
    decide +kernel
  have hc := hall c.toNat c.toNat_lt
  rw [UInt8.ofNat_toNat, h] at hc
  exact beq_iff_eq.1 hc

/-- The character of a digit. -/
def digitCharacter (d : Nat) : UInt8 := encodeDigit (UInt32.ofNat d)

theorem decodeDigit_digitCharacter (h : d < 36) : decodeDigit (digitCharacter d) = some (UInt32.ofNat d) := by
  have hall : ∀ d < 36, decodeDigit (digitCharacter d) = some (UInt32.ofNat d) := by decide +kernel
  exact hall d h

theorem mapM_rfcDigit_cons (hc : rfcDigit c = some d) (h : input.mapM rfcDigit = some digits) :
    (c :: input).mapM rfcDigit = some (d :: digits) := by
  rw [List.mapM_cons, hc, h]
  rfl

theorem mapM_rfcDigit_append {digits' : List Nat} (h : input.mapM rfcDigit = some digits)
    (h' : rest.mapM rfcDigit = some digits') : (input ++ rest).mapM rfcDigit = some (digits ++ digits') := by
  rw [List.mapM_append, h, h']
  rfl

/-! ## Numbers -/

/-- Behind a digit that is not the last one: the position and the weight. -/
theorem weight_step (hbias : bias.toNat ≤ 213) (hk : k.toNat = 36 * (j + 1)) (hw : 10 ^ j ≤ w.toNat)
    (hfits : w.toNat * (36 - rfcThreshold bias.toNat k.toNat) < 2 ^ 32) :
    (w * (punycodeBase - threshold bias k)).toNat = w.toNat * (36 - rfcThreshold bias.toNat k.toNat) ∧
      (k + punycodeBase).toNat = k.toNat + 36 ∧ 10 ^ (j + 1) ≤ w.toNat * (36 - rfcThreshold bias.toNat k.toNat) := by
  have hgrows : 10 ^ (j + 1) ≤ w.toNat * (36 - rfcThreshold bias.toNat k.toNat) := by
    have hle := rfcThreshold_le bias.toNat k.toNat
    exact Nat.mul_le_mul hw (by omega)
  refine ⟨?_, ?_, hgrows⟩
  · rw [UInt32.toNat_mul, base_sub_threshold hbias, Nat.mod_eq_of_lt hfits]
  · -- a weight of 32 bits has ten positions at most
    have hfew : j < 10 := by
      by_contra hmany
      have := Nat.pow_le_pow_right (show 0 < 10 by decide) (Nat.not_lt.1 hmany)
      rw [Nat.pow_succ] at hgrows
      omega
    rw [UInt32.toNat_add]
    exact Nat.mod_eq_of_lt (show k.toNat + 36 < 2 ^ 32 by omega)

/-- The number that is decoded is the number of the procedure, except that it is taken modulo 2^32. -/
theorem decodeNumber_sound (hbias : bias.toNat ≤ 213) (hk : k.toNat = 36 * (j + 1)) (hw : 10 ^ j ≤ w.toNat)
    (hi : i.toNat = n % 2 ^ 32) (h : decodeNumber bias k w i input = .ok (i', rest)) :
    ∃ used digits total, input = used ++ rest ∧ used.mapM rfcDigit = some digits ∧ i'.toNat = total % 2 ^ 32 ∧
      ∀ more, punycode.decodeNumber bias.toNat k.toNat w.toNat n (digits ++ more) = some (total, more) := by
  induction input generalizing k w i n j with
  | nil => cases h
  | cons c input ih =>
      obtain ⟨digit, hdigit, hnumber⟩ := decodeNumber_cons h
      have hc := rfcDigit_of_decodeDigit hdigit
      have hsum : (i + digit * w).toNat = (n + digit.toNat * w.toNat) % 2 ^ 32 := by
        rw [UInt32.toNat_add, UInt32.toNat_mul, hi, ← Nat.add_mod]
      rw [UInt32.lt_iff_toNat_lt, threshold_toNat hbias] at hnumber
      rcases hnumber with ⟨hlast, rfl, rfl⟩ | ⟨hmore, w', hmul, hbehind⟩
      · refine ⟨[c], [digit.toNat], _, rfl, mapM_rfcDigit_cons hc rfl, hsum, fun more => ?_⟩
        exact if_pos hlast
      · obtain ⟨hfits, rfl⟩ := multiplyAndCheckOverflow_iff.1 hmul
        rw [base_sub_threshold hbias] at hfits
        obtain ⟨hweight, hk', hw'⟩ := weight_step hbias hk hw hfits
        obtain ⟨used, digits, total, rfl, hused, htotal, hdecode⟩ := ih (by omega) (hweight ▸ hw') hsum hbehind
        rw [hk', hweight] at hdecode
        refine ⟨c :: used, _, total, rfl, mapM_rfcDigit_cons hc hused, htotal, fun more => ?_⟩
        exact (if_neg hmore).trans (hdecode more)

/-- A number below 2^32 is decoded. -/
theorem decodeNumber_complete (hbias : bias.toNat ≤ 213) (hk : k.toNat = 36 * (j + 1)) (hw : 10 ^ j ≤ w.toNat)
    (hsmall : j ≤ 6 → w.toNat ≤ 35 ^ j) (hdigits : ∀ d ∈ digits, d < 36) {digits' : List Nat}
    (h : punycode.decodeNumber bias.toNat k.toNat w.toNat i.toNat digits = some (total, digits'))
    (htotal : total < 2 ^ 32) :
    decodeNumber bias k w i (digits.map digitCharacter) = .ok (UInt32.ofNat total, digits'.map digitCharacter) := by
  induction digits generalizing k w i j with
  | nil => cases h
  | cons d digits ih =>
      obtain ⟨hd, hdigits⟩ := List.forall_mem_cons.1 hdigits
      have hd' : (UInt32.ofNat d).toNat = d := UInt32.toNat_ofNat_of_lt' (hd.trans (by decide))
      have hle : i.toNat + d * w.toNat ≤ total := by
        rw [Bootstring.decodeNumber] at h
        split at h
        · cases h
          exact Nat.le_refl _
        · exact Bootstring.le_decodeNumber h
      have hsum : (i + UInt32.ofNat d * w).toNat = i.toNat + d * w.toNat := by
        rw [UInt32.toNat_add, UInt32.toNat_mul, hd', Nat.mod_eq_of_lt (show d * w.toNat < 2 ^ 32 by omega)]
        exact Nat.mod_eq_of_lt (by omega)
      rw [List.map_cons, decodeNumber, decodeDigit_digitCharacter hd]
      simp only [UInt32.lt_iff_toNat_lt, hd', threshold_toNat hbias]
      by_cases hlast : d < rfcThreshold bias.toNat k.toNat
      · rw [if_pos hlast]
        cases (if_pos hlast).symm.trans h
        rw [← hsum, UInt32.ofNat_toNat]
      · rw [if_neg hlast]
        have hbehind := (if_neg hlast).symm.trans h
        -- the weight is one of the first, or the digit is not below the greatest threshold
        have hfits : w.toNat * (36 - rfcThreshold bias.toNat k.toNat) < 2 ^ 32 ∧
            (j + 1 ≤ 6 → w.toNat * (36 - rfcThreshold bias.toNat k.toNat) ≤ 35 ^ (j + 1)) := by
          by_cases hfirst : j ≤ 5
          · have hpos : 0 < rfcThreshold bias.toNat k.toNat := punycode.threshold_pos _ _
            have hgrown : w.toNat * (36 - rfcThreshold bias.toNat k.toNat) ≤ 35 ^ (j + 1) :=
              Nat.mul_le_mul (hsmall (by omega)) (by omega)
            have hpow : 35 ^ (j + 1) ≤ 35 ^ 6 := Nat.pow_le_pow_right (by decide) (Nat.succ_le_succ hfirst)
            exact ⟨(hgrown.trans hpow).trans_lt (by decide), fun _ => hgrown⟩
          · have hmax : rfcThreshold bias.toNat k.toNat = 26 := by
              rw [rfcThreshold, if_neg (by omega), if_pos (by omega)]
            rw [hmax] at hlast ⊢
            have hdw : 26 * w.toNat ≤ d * w.toNat := Nat.mul_le_mul_right _ (Nat.not_lt.1 hlast)
            exact ⟨by omega, fun h => absurd h (by omega)⟩
        have hmul : multiplyAndCheckOverflow w (punycodeBase - threshold bias k) = some _ :=
          multiplyAndCheckOverflow_iff.2 ⟨by rw [base_sub_threshold hbias]; exact hfits.1, rfl⟩
        rw [hmul]
        obtain ⟨hweight, hk', hw'⟩ := weight_step hbias hk hw hfits.1
        refine ih (by omega) (hweight ▸ hw') (hweight ▸ hfits.2) hdigits ?_
        rw [hk', hweight, hsum]
        exact hbehind

end

/-! ## Insertions -/

section

variable {s s' : DecodeState} {i : UInt32} {input rest : Bytes}

/-- What holds of the variables of the decoder. -/
structure DecodeState.Ok (s : DecodeState) : Prop where
  bias_le : s.bias.toNat ≤ 213
  len : s.outputBytesLen = UInt32.ofNat (s.output.map utf8CodepointSize).sum
  valid : ∀ c ∈ s.output, isValidCodepoint c = true

/-- Behind the insertion of the code point `n`. -/
def DecodeState.inserted (s : DecodeState) (i n : UInt32) : DecodeState where
  output := s.output.insertIdx (i.toNat % (s.output.length + 1)) n.toNat
  outputBytesLen := s.outputBytesLen + UInt32.ofNat (utf8CodepointSize n.toNat)
  n := n
  i := UInt32.ofNat (i.toNat % (s.output.length + 1)) + 1
  bias := adapt (i - s.i) (UInt32.ofNat (s.output.length + 1)) (s.i == 0)

theorem insertCodepoint_iff :
    insertCodepoint s i = .ok s' ↔ UInt32.ofNat (s.output.length + 1) ≠ 0 ∧
      ∃ n, addAndCheckOverflow s.n (i / UInt32.ofNat (s.output.length + 1)) = some n ∧
        isValidCodepoint n.toNat = true ∧ s' = s.inserted i n := by
  rw [insertCodepoint]
  by_cases hzero : UInt32.ofNat (s.output.length + 1) = 0
  · rw [if_pos hzero]
    exact ⟨nofun, fun h => absurd hzero h.1⟩
  rw [if_neg hzero]
  cases hadd : addAndCheckOverflow s.n (i / UInt32.ofNat (s.output.length + 1)) with
  | none => exact ⟨nofun, nofun⟩
  | some n =>
      by_cases hvalid : isValidCodepoint n.toNat = true
      · simp only [hvalid, if_true]
        exact ⟨fun h => ⟨hzero, n, rfl, hvalid, (Except.ok.inj h).symm⟩, fun ⟨_, _, hn, _, hs'⟩ => by cases hn; rw [hs']; rfl⟩
      · simp only [hvalid]
        exact ⟨nofun, fun ⟨_, _, hn, hvalid', _⟩ => by cases hn; exact absurd hvalid' hvalid⟩

theorem inserted_length (s : DecodeState) (i n : UInt32) : (s.inserted i n).output.length = s.output.length + 1 :=
  List.length_insertIdx_of_le_length (Bootstring.pos_le _ _) _

theorem inserted_perm (s : DecodeState) (i n : UInt32) : (s.inserted i n).output.Perm (n.toNat :: s.output) :=
  List.perm_insertIdx _ _ (Bootstring.pos_le _ _)

theorem DecodeState.Ok.inserted (hs : s.Ok) {n : UInt32} (hvalid : isValidCodepoint n.toNat = true) :
    (s.inserted i n).Ok where
  bias_le := (adapt_toNat _ _ _).2
  len := by
    rw [((inserted_perm s i n).map _).sum_nat, List.map_cons, List.sum_cons, UInt32.ofNat_add, ← hs.len, UInt32.add_comm]
    rfl
  valid c hc := by
    rcases List.mem_cons.1 ((inserted_perm s i n).mem_iff.1 hc) with rfl | hc
    · exact hvalid
    · exact hs.valid c hc

/-! ## The loop -/

theorem decodeLoop_nil (s : DecodeState) : decodeLoop s [] = .ok s := by rw [decodeLoop, if_pos rfl]

theorem decodeLoop_of_number (hnumber : decodeNumber s.bias punycodeBase 1 s.i input = .ok (i, rest))
    (hinsert : insertCodepoint s i = .ok s') : decodeLoop s input = decodeLoop s' rest := by
  have hne : input ≠ [] := by
    rintro rfl
    cases hnumber
  rw [decodeLoop, if_neg hne]
  split
  · rename_i herror
    rw [hnumber] at herror
    cases herror
  rename_i hfound
  rw [hnumber] at hfound
  cases hfound
  rw [hinsert]

/-- The turns of a loop that ends. -/
theorem decodeLoop_induct {motive : DecodeState → Bytes → Prop} (nil : motive s' [])
    (step : ∀ s input i rest n, decodeNumber s.bias punycodeBase 1 s.i input = .ok (i, rest) →
      UInt32.ofNat (s.output.length + 1) ≠ 0 →
      addAndCheckOverflow s.n (i / UInt32.ofNat (s.output.length + 1)) = some n → isValidCodepoint n.toNat = true →
      decodeLoop (s.inserted i n) rest = .ok s' → motive (s.inserted i n) rest → motive s input)
    (h : decodeLoop s input = .ok s') : motive s input := by
  induction hlen : input.length using Nat.strongRecOn generalizing s input with
  | ind len ih =>
      rw [decodeLoop] at h
      split at h
      · rename_i hnil
        cases h
        exact hnil ▸ nil
      split at h
      · cases h
      rename_i i rest hnumber
      split at h
      · cases h
      rename_i s1 hinsert
      obtain ⟨hzero, n, hadd, hvalid, rfl⟩ := insertCodepoint_iff.1 hinsert
      exact step s input i rest n hnumber hzero hadd hvalid h (ih _ (hlen ▸ decodeNumber_length hnumber) h rfl)

theorem decodeLoop_ok (h : decodeLoop s input = .ok s') : s.Ok → s'.Ok := by
  refine decodeLoop_induct (motive := fun s _ => s.Ok → s'.Ok) id ?_ h
  intro s input i rest n hnumber hzero hadd hvalid hloop ih hs
  exact ih (hs.inserted hvalid)

theorem decodeLoop_sublist (h : decodeLoop s input = .ok s') : s.output.Sublist s'.output := by
  refine decodeLoop_induct (motive := fun s _ => s.output.Sublist s'.output) (List.Sublist.refl _) ?_ h
  intro s input i rest n hnumber hzero hadd hvalid hloop ih
  exact (List.sublist_insertIdx ..).trans ih

/-- Behind the insertion for a number of the procedure. -/
theorem inserted_follows {n : UInt32} {total : Nat} (hlen : s.output.length + 1 < 2 ^ 32) (hle : s.i.toNat ≤ total)
    (hi : i.toNat = total)
    (hadd : addAndCheckOverflow s.n (i / UInt32.ofNat (s.output.length + 1)) = some n) :
    (s.inserted i n).output =
        s.output.insertIdx (total % (s.output.length + 1)) (s.n.toNat + total / (s.output.length + 1)) ∧
      n.toNat = s.n.toNat + total / (s.output.length + 1) ∧
      (s.inserted i n).i.toNat = total % (s.output.length + 1) + 1 ∧
      (s.inserted i n).bias.toNat =
        punycode.adapt (total - s.i.toNat) (s.output.length + 1) (s.i.toNat = 0) := by
  have hnumpoints : (UInt32.ofNat (s.output.length + 1)).toNat = s.output.length + 1 := UInt32.toNat_ofNat_of_lt' hlen
  have hpos := Bootstring.pos_le total s.output.length
  obtain ⟨hfits, rfl⟩ := addAndCheckOverflow_iff.1 hadd
  have hn : (s.n + i / UInt32.ofNat (s.output.length + 1)).toNat = s.n.toNat + total / (s.output.length + 1) := by
    rw [UInt32.toNat_add, Nat.mod_eq_of_lt hfits, UInt32.toNat_div, hnumpoints, hi]
  refine ⟨?_, hn, ?_, ?_⟩
  · rw [← hn, ← hi]
    rfl
  · show (UInt32.ofNat (i.toNat % (s.output.length + 1)) + 1).toNat = _
    rw [hi, UInt32.toNat_add, UInt32.toNat_ofNat_of_lt' (show _ < 2 ^ 32 by omega)]
    exact Nat.mod_eq_of_lt (show total % (s.output.length + 1) + 1 < 2 ^ 32 by omega)
  · have hfirst : (s.i == 0) = decide (s.i.toNat = 0) := by
      rw [Bool.eq_iff_iff, beq_iff_eq, decide_eq_true_eq, ← UInt32.toNat_inj]
      rfl
    refine (adapt_toNat _ _ _).1.trans ?_
    rw [UInt32.toNat_sub_of_le _ _ (UInt32.le_iff_toNat_le.2 (hi ▸ hle)), hnumpoints, hi, hfirst]
    rfl

/-- A loop that ends gives the list of the procedure just when no index was above 32 bits: the code point of a number that
was taken modulo 2^32 is below that of the procedure, which does not come back to it. -/
theorem decodeLoop_iff (h : decodeLoop s input = .ok s') (hlen : s'.output.length < 2 ^ 32) (hs : s.Ok) :
    ∃ digits, input.mapM rfcDigit = some digits ∧
      (punycode.decodeFrom s.n.toNat s.i.toNat s.bias.toNat s.output digits = some s'.output ↔
        punycode.StaysBelow (2 ^ 32) s.i.toNat s.output.length s.bias.toNat digits) := by
  revert hs
  refine decodeLoop_induct (motive := fun s input => s.Ok → ∃ digits, input.mapM rfcDigit = some digits ∧
    (punycode.decodeFrom s.n.toNat s.i.toNat s.bias.toNat s.output digits = some s'.output ↔
      punycode.StaysBelow (2 ^ 32) s.i.toNat s.output.length s.bias.toNat digits)) ?_ ?_ h
  · intro _
    refine ⟨[], rfl, ?_⟩
    rw [Bootstring.decodeFrom_nil, Bootstring.StaysBelow, if_pos rfl]
    exact iff_of_true rfl trivial
  intro s input i rest n hnumber hzero hadd hvalid hloop ih hs
  obtain ⟨digits', hdigits', hiff⟩ := ih (hs.inserted hvalid)
  obtain ⟨used, digits, total, rfl, hused, hi, hdecode⟩ := decodeNumber_sound (j := 0) (w := 1) (n := s.i.toNat) hs.bias_le
    rfl (by decide) (Nat.mod_eq_of_lt s.i.toNat_lt).symm hnumber
  have hnext := hdecode digits'
  have hmore := (decodeLoop_sublist hloop).length_le
  rw [inserted_length] at hmore
  refine ⟨digits ++ digits', mapM_rfcDigit_append hused hdigits', ?_⟩
  rw [Bootstring.decodeFrom_of_number hnext, Bootstring.staysBelow_of_number hnext]
  by_cases hfits : total < 2 ^ 32
  · rw [Nat.mod_eq_of_lt hfits] at hi
    obtain ⟨hout, hn, hi', hbias⟩ := inserted_follows (by omega) (Bootstring.le_decodeNumber hnext) hi hadd
    rw [hi', hbias, inserted_length, show (s.inserted i n).n = n from rfl, hn, hout] at hiff
    exact hiff.trans (and_iff_right hfits).symm
  · refine iff_of_false (fun hout => ?_) fun h => hfits h.1
    -- the code point that was inserted is missing
    have hbelow : n.toNat < s.n.toNat + total / (s.output.length + 1) := by
      obtain ⟨hsum, rfl⟩ := addAndCheckOverflow_iff.1 hadd
      have hdiv : (total % 2 ^ 32 + (s.output.length + 1)) / (s.output.length + 1) ≤ total / (s.output.length + 1) :=
        Nat.div_le_div_right (by omega)
      rw [Nat.add_div_right _ (Nat.succ_pos _)] at hdiv
      rw [UInt32.toNat_add, Nat.mod_eq_of_lt hsum, UInt32.toNat_div, UInt32.toNat_ofNat_of_lt' (show _ < 2 ^ 32 by omega), hi]
      exact Nat.add_lt_add_left hdiv _
    have hsame := (Bootstring.sublist_decodeFrom hout).2 _ hbelow
    rw [(List.perm_insertIdx _ _ (Bootstring.pos_le _ _)).count_eq, List.count_cons_of_ne (Nat.ne_of_gt hbelow)] at hsame
    have hcount := (decodeLoop_sublist hloop).count_le n.toNat
    rw [(inserted_perm s i n).count_eq, List.count_cons_self] at hcount
    omega

/-- A list of code points is decoded when the indexes are below 2^32. -/
theorem decodeLoop_complete {digits out : List Nat} (hs : s.Ok) (hdigits : ∀ d ∈ digits, d < 36)
    (hindex : punycode.StaysBelow (2 ^ 32) s.i.toNat s.output.length s.bias.toNat digits)
    (h : punycode.decodeFrom s.n.toNat s.i.toNat s.bias.toNat s.output digits = some out)
    (hvalid : ∀ c ∈ out, isValidCodepoint c = true) (hlen : out.length < 2 ^ 32) :
    ∃ s', decodeLoop s (digits.map digitCharacter) = .ok s' ∧ s'.output = out := by
  induction hcount : digits.length using Nat.strongRecOn generalizing s digits with
  | ind len ih =>
      by_cases hnil : digits = []
      · subst hnil
        rw [Bootstring.decodeFrom_nil] at h
        exact ⟨s, decodeLoop_nil s, Option.some.inj h⟩
      cases hnumber : punycode.decodeNumber s.bias.toNat punycode.base 1 s.i.toNat digits with
      | none =>
          rw [Bootstring.decodeFrom_of_none hnil hnumber] at h
          cases h
      | some found =>
          obtain ⟨total, rest⟩ := found
          rw [Bootstring.decodeFrom_of_number hnumber] at h
          obtain ⟨htotal, hindex⟩ := (Bootstring.staysBelow_of_number hnumber).1 hindex
          have hcode := decodeNumber_complete (j := 0) (k := punycodeBase) (w := 1) hs.bias_le rfl (by decide)
            (fun _ => by decide) hdigits hnumber htotal
          have hi : (UInt32.ofNat total).toNat = total := UInt32.toNat_ofNat_of_lt' htotal
          -- what is inserted stays
          have hpos := Bootstring.pos_le total s.output.length
          have hsub := (Bootstring.sublist_decodeFrom h).1
          have hmore := hsub.length_le
          rw [List.length_insertIdx_of_le_length hpos] at hmore
          have hn := hvalid _ (hsub.subset ((List.mem_insertIdx hpos).2 (.inl rfl)))
          have hmax := (isValidCodepoint_iff.1 hn).1
          have hnumpoints : (UInt32.ofNat (s.output.length + 1)).toNat = s.output.length + 1 :=
            UInt32.toNat_ofNat_of_lt' (show s.output.length + 1 < 2 ^ 32 by omega)
          have hsum : s.n.toNat + (UInt32.ofNat total / UInt32.ofNat (s.output.length + 1)).toNat < 2 ^ 32 := by
            rw [UInt32.toNat_div, hi, hnumpoints]
            exact Nat.lt_of_le_of_lt hmax (by decide)
          have hadd := addAndCheckOverflow_iff.2 ⟨hsum, rfl⟩
          obtain ⟨hout, hnext, hi', hbias⟩ := inserted_follows (by omega) (Bootstring.le_decodeNumber hnumber) hi hadd
          rw [← hnext] at hn
          have hinsert := insertCodepoint_iff.2 ⟨fun hzero => ?_, _, hadd, hn, rfl⟩
          rotate_left
          · rw [hzero] at hnumpoints
            cases hnumpoints
          rw [decodeLoop_of_number hcode hinsert]
          refine ih _ (hcount ▸ Bootstring.decodeNumber_length hnumber) (hs.inserted hn) ?_ ?_ ?_ rfl
          · exact fun d hd => hdigits d ((Bootstring.decodeNumber_suffix hnumber).subset hd)
          · rw [hi', hbias, inserted_length]
            exact hindex
          · rw [hi', hbias, hout]
            exact hnext ▸ h

end

end Rad.Idna
