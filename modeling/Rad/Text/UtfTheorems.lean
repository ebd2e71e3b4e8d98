import Mathlib.Data.List.Forall2
import Rad.Text.Utf

/-!
# The UTF-8 codec

What is decoded is the table of the well-formed sequences, and the encoder gives back what was decoded.
-/

namespace Rad

/-! ## Texts -/

/-- `utf8_codecvt::decode` until there is nothing left. -/
def utf8DecodeAll (t : Bytes) : Except Errc (List Nat) :=
  match t with
  | [] => .ok []
  | b :: t =>
    match _h : utf8Decode (b :: t) with
    | (.ok cp, rest) => (utf8DecodeAll rest).map (cp :: ·)
    | (.error e, _) => .error e
  termination_by t.length
  decreasing_by
    obtain ⟨b', conts, htext, -⟩ := utf8Decode_ok _h
    rw [htext, List.length_cons, List.length_append]
    omega

/-- `utf8_codecvt::encode` into a buffer of `n` bytes. -/
def utf8EncodeInto (n cp : Nat) : Bytes := if utf8CodepointSize cp > n then [] else utf8Encode cp

/-- Unicode, table 3-7: the rows have a range for each byte of a sequence. -/
def utf8Table : List (List (UInt8 × UInt8)) := [
    [(0x00, 0x7f)],
    [(0xc2, 0xdf), (0x80, 0xbf)],
    [(0xe0, 0xe0), (0xa0, 0xbf), (0x80, 0xbf)],
    [(0xe1, 0xec), (0x80, 0xbf), (0x80, 0xbf)],
    [(0xed, 0xed), (0x80, 0x9f), (0x80, 0xbf)],
    [(0xee, 0xef), (0x80, 0xbf), (0x80, 0xbf)],
    [(0xf0, 0xf0), (0x90, 0xbf), (0x80, 0xbf), (0x80, 0xbf)],
    [(0xf1, 0xf3), (0x80, 0xbf), (0x80, 0xbf), (0x80, 0xbf)],
    [(0xf4, 0xf4), (0x80, 0x8f), (0x80, 0xbf), (0x80, 0xbf)]]

/-- The bytes lie in the ranges of a row. -/
def InRow (row : List (UInt8 × UInt8)) (s : Bytes) : Prop :=
  List.Forall₂ (fun range b => range.1 ≤ b ∧ b ≤ range.2) row s

/-- A text of sequences of the table. -/
inductive Utf8WellFormed : Bytes → Prop where
  | nil : Utf8WellFormed []
  | append {row : List (UInt8 × UInt8)} {s t : Bytes} (hrow : row ∈ utf8Table) (hs : InRow row s)
      (ht : Utf8WellFormed t) : Utf8WellFormed (s ++ t)

/-! ## Bytes as numbers -/

theorem isUtf8ContinuationByte_iff {b : UInt8} :
    isUtf8ContinuationByte b = true ↔ 0x80 ≤ b.toNat ∧ b.toNat ≤ 0xbf := by
  have h : ∀ n < 256, isUtf8ContinuationByte (UInt8.ofNat n) = true ↔ 0x80 ≤ n ∧ n ≤ 0xbf := by decide +kernel
  have := h b.toNat b.toNat_lt
  rwa [UInt8.ofNat_toNat] at this

theorem utf8SequenceSize_iff (b : UInt8) :
    (utf8SequenceSize b = 1 ↔ b.toNat ≤ 0x7f) ∧ (utf8SequenceSize b = 2 ↔ 0xc0 ≤ b.toNat ∧ b.toNat ≤ 0xdf) ∧
      (utf8SequenceSize b = 3 ↔ 0xe0 ≤ b.toNat ∧ b.toNat ≤ 0xef) ∧
      (utf8SequenceSize b = 4 ↔ 0xf0 ≤ b.toNat ∧ b.toNat ≤ 0xf7) := by
  have h : ∀ n < 256, (utf8SequenceSize (UInt8.ofNat n) = 1 ↔ n ≤ 0x7f) ∧
      (utf8SequenceSize (UInt8.ofNat n) = 2 ↔ 0xc0 ≤ n ∧ n ≤ 0xdf) ∧
      (utf8SequenceSize (UInt8.ofNat n) = 3 ↔ 0xe0 ≤ n ∧ n ≤ 0xef) ∧
      (utf8SequenceSize (UInt8.ofNat n) = 4 ↔ 0xf0 ≤ n ∧ n ≤ 0xf7) := by decide +kernel
  have := h b.toNat b.toNat_lt
  rwa [UInt8.ofNat_toNat] at this

theorem utf8FirstBits_eq (b : UInt8) :
    utf8FirstBits 1 b = b.toNat % 0x80 ∧ utf8FirstBits 2 b = b.toNat % 0x20 ∧ utf8FirstBits 3 b = b.toNat % 0x10 ∧
      utf8FirstBits 4 b = b.toNat % 0x08 := by
  have h : ∀ n < 256, utf8FirstBits 1 (UInt8.ofNat n) = n % 0x80 ∧ utf8FirstBits 2 (UInt8.ofNat n) = n % 0x20 ∧
      utf8FirstBits 3 (UInt8.ofNat n) = n % 0x10 ∧ utf8FirstBits 4 (UInt8.ofNat n) = n % 0x08 := by decide +kernel
  have := h b.toNat b.toNat_lt
  rwa [UInt8.ofNat_toNat] at this

example : utf8FirstBits 3 0xe2 = 2 := by decide +kernel

theorem continuation_eq (b : UInt8) : (b &&& 0x3f).toNat = b.toNat % 0x40 := by
  rw [UInt8.toNat_and]
  exact Nat.and_two_pow_sub_one_eq_mod b.toNat 6

theorem isValidCodepoint_iff {cp : Nat} :
    isValidCodepoint cp = true ↔ cp ≤ 0x10ffff ∧ ¬(0xd800 ≤ cp ∧ cp ≤ 0xdfff) := by
  simp only [isValidCodepoint, isSurrogateCodepoint, Bool.and_eq_true, Bool.not_eq_true', Bool.and_eq_false_iff,
    decide_eq_true_eq, decide_eq_false_iff_not]
  omega

/-! ## Sequences -/

section

variable {b c d e : UInt8} {cp : Nat} {conts t rest : Bytes}

/-- When a first byte and continuation bytes are a sequence. -/
theorem utf8Decode_whole :
    utf8Decode (b :: conts) = (.ok cp, []) ↔
      utf8SequenceSize b = conts.length + 1 ∧ conts.all isUtf8ContinuationByte = true ∧
      utf8Codepoint (conts.length + 1) b conts = cp ∧ isValidCodepoint cp = true ∧
      utf8CodepointSize cp = conts.length + 1 := by
  constructor
  · intro h
    obtain ⟨b', conts', htext, hsequence⟩ := utf8Decode_ok h
    rw [List.append_nil] at htext
    obtain ⟨rfl, rfl⟩ := List.cons.inj htext
    exact hsequence
  · rintro ⟨hsize, hconts, hcp, hvalid, hlen⟩
    have h := utf8Decode_sequence hsize hconts hcp hvalid hlen []
    rwa [List.append_nil] at h

theorem utf8Decode_one : utf8Decode [b] = (.ok cp, []) ↔ b.toNat ≤ 0x7f ∧ b.toNat = cp := by
  rw [utf8Decode_whole, isValidCodepoint_iff]
  simp only [List.length_nil, Nat.reduceAdd, (utf8SequenceSize_iff b).1, List.all_nil, true_and, utf8Codepoint,
    List.foldl_nil, (utf8FirstBits_eq b).1, utf8CodepointSize]
  split_ifs <;> omega

theorem utf8Decode_two :
    utf8Decode [b, c] = (.ok cp, []) ↔
      (0xc2 ≤ b.toNat ∧ b.toNat ≤ 0xdf) ∧ (0x80 ≤ c.toNat ∧ c.toNat ≤ 0xbf) ∧
      (b.toNat - 0xc0) * 0x40 + (c.toNat - 0x80) = cp := by
  rw [utf8Decode_whole, isValidCodepoint_iff]
  simp only [List.length_cons, List.length_nil, Nat.reduceAdd, (utf8SequenceSize_iff b).2.1, List.all_cons,
    List.all_nil, Bool.and_true, utf8Codepoint, List.foldl_cons, List.foldl_nil, (utf8FirstBits_eq b).2.1, continuation_eq, utf8CodepointSize, isUtf8ContinuationByte_iff]
  split_ifs <;> omega

theorem utf8Decode_three :
    utf8Decode [b, c, d] = (.ok cp, []) ↔
      (0xe0 ≤ b.toNat ∧ b.toNat ≤ 0xef) ∧ (0x80 ≤ c.toNat ∧ c.toNat ≤ 0xbf) ∧ (0x80 ≤ d.toNat ∧ d.toNat ≤ 0xbf) ∧
      ((b.toNat - 0xe0) * 0x40 + (c.toNat - 0x80)) * 0x40 + (d.toNat - 0x80) = cp ∧ 0x800 ≤ cp ∧
      ¬(0xd800 ≤ cp ∧ cp ≤ 0xdfff) := by
  rw [utf8Decode_whole, isValidCodepoint_iff]
  simp only [List.length_cons, List.length_nil, Nat.reduceAdd, (utf8SequenceSize_iff b).2.2.1, List.all_cons,
    List.all_nil, Bool.and_true, Bool.and_eq_true, utf8Codepoint, List.foldl_cons, List.foldl_nil,
    (utf8FirstBits_eq b).2.2.1, continuation_eq, utf8CodepointSize, isUtf8ContinuationByte_iff]
  split_ifs <;> omega

theorem utf8Decode_four :
    utf8Decode [b, c, d, e] = (.ok cp, []) ↔
      (0xf0 ≤ b.toNat ∧ b.toNat ≤ 0xf7) ∧ (0x80 ≤ c.toNat ∧ c.toNat ≤ 0xbf) ∧ (0x80 ≤ d.toNat ∧ d.toNat ≤ 0xbf) ∧
      (0x80 ≤ e.toNat ∧ e.toNat ≤ 0xbf) ∧
      (((b.toNat - 0xf0) * 0x40 + (c.toNat - 0x80)) * 0x40 + (d.toNat - 0x80)) * 0x40 + (e.toNat - 0x80) = cp ∧
      0x10000 ≤ cp ∧ cp ≤ 0x10ffff := by
  rw [utf8Decode_whole, isValidCodepoint_iff]
  simp only [List.length_cons, List.length_nil, Nat.reduceAdd, (utf8SequenceSize_iff b).2.2.2, List.all_cons,
    List.all_nil, Bool.and_true, Bool.and_eq_true, utf8Codepoint, List.foldl_cons, List.foldl_nil,
    (utf8FirstBits_eq b).2.2.2, continuation_eq, utf8CodepointSize, isUtf8ContinuationByte_iff]
  split_ifs <;> omega

/-- The sequences of the table are those that are decoded as a whole. -/
theorem inTable_iff {s : Bytes} : (∃ row ∈ utf8Table, InRow row s) ↔ ∃ cp, utf8Decode s = (.ok cp, []) := by
  constructor
  · rintro ⟨row, hrow, hs⟩
    simp only [utf8Table, List.mem_cons, List.not_mem_nil, or_false] at hrow
    rcases hrow with rfl | rfl | rfl | rfl | rfl | rfl | rfl | rfl | rfl
    all_goals
      simp only [InRow, List.forall₂_cons_left_iff, List.forall₂_nil_left_iff, UInt8.le_iff_toNat_le,
        UInt8.reduceToNat] at hs
    · obtain ⟨b, _, hb, rfl, rfl⟩ := hs
      exact ⟨_, utf8Decode_one.2 ⟨hb.2, rfl⟩⟩
    · obtain ⟨b, _, hb, ⟨c, _, hc, rfl, rfl⟩, rfl⟩ := hs
      exact ⟨_, utf8Decode_two.2 ⟨hb, hc, rfl⟩⟩
    · obtain ⟨b, _, hb, ⟨c, _, hc, ⟨d, _, hd, rfl, rfl⟩, rfl⟩, rfl⟩ := hs
      exact ⟨_, utf8Decode_three.2 ⟨by omega, by omega, hd, rfl, by omega, by omega⟩⟩
    · obtain ⟨b, _, hb, ⟨c, _, hc, ⟨d, _, hd, rfl, rfl⟩, rfl⟩, rfl⟩ := hs
      exact ⟨_, utf8Decode_three.2 ⟨by omega, hc, hd, rfl, by omega, by omega⟩⟩
    · obtain ⟨b, _, hb, ⟨c, _, hc, ⟨d, _, hd, rfl, rfl⟩, rfl⟩, rfl⟩ := hs
      exact ⟨_, utf8Decode_three.2 ⟨by omega, by omega, hd, rfl, by omega, by omega⟩⟩
    · obtain ⟨b, _, hb, ⟨c, _, hc, ⟨d, _, hd, rfl, rfl⟩, rfl⟩, rfl⟩ := hs
      exact ⟨_, utf8Decode_three.2 ⟨by omega, hc, hd, rfl, by omega, by omega⟩⟩
    · obtain ⟨b, _, hb, ⟨c, _, hc, ⟨d, _, hd, ⟨e, _, he, rfl, rfl⟩, rfl⟩, rfl⟩, rfl⟩ := hs
      exact ⟨_, utf8Decode_four.2 ⟨by omega, by omega, hd, he, rfl, by omega, by omega⟩⟩
    · obtain ⟨b, _, hb, ⟨c, _, hc, ⟨d, _, hd, ⟨e, _, he, rfl, rfl⟩, rfl⟩, rfl⟩, rfl⟩ := hs
      exact ⟨_, utf8Decode_four.2 ⟨by omega, hc, hd, he, rfl, by omega, by omega⟩⟩
    · obtain ⟨b, _, hb, ⟨c, _, hc, ⟨d, _, hd, ⟨e, _, he, rfl, rfl⟩, rfl⟩, rfl⟩, rfl⟩ := hs
      exact ⟨_, utf8Decode_four.2 ⟨by omega, by omega, hd, he, rfl, by omega, by omega⟩⟩
  · rintro ⟨cp, h⟩
    simp only [utf8Table, List.mem_cons, List.not_mem_nil, or_false, exists_eq_or_imp, exists_eq_left, InRow]
    obtain ⟨b, conts, rfl, -, -, -, -, hlen⟩ := utf8Decode_ok h
    have hle : conts.length ≤ 3 := by
      have : utf8CodepointSize cp ≤ 4 := by rw [utf8CodepointSize]; split_ifs <;> omega
      omega
    rw [List.append_nil] at h
    match conts, hle with
    | [], _ =>
      have := utf8Decode_one.1 h
      simp [UInt8.le_iff_toNat_le]
      omega
    | [c], _ =>
      have := utf8Decode_two.1 h
      simp [UInt8.le_iff_toNat_le]
      omega
    | [c, d], _ =>
      have := utf8Decode_three.1 h
      simp [UInt8.le_iff_toNat_le]
      omega
    | [c, d, e], _ =>
      have := utf8Decode_four.1 h
      simp [UInt8.le_iff_toNat_le]
      omega

/-- The bytes of the encoding, as numbers. -/
theorem utf8Encode_toNat (hmax : cp ≤ 0x10ffff) :
    (utf8Encode cp).map UInt8.toNat =
      if cp ≤ 0x7f then [cp]
      else if cp ≤ 0x7ff then [0xc0 + cp / 0x40, 0x80 + cp % 0x40]
      else if cp ≤ 0xffff then [0xe0 + cp / 0x1000, 0x80 + cp / 0x40 % 0x40, 0x80 + cp % 0x40]
      else [0xf0 + cp / 0x40000, 0x80 + cp / 0x1000 % 0x40, 0x80 + cp / 0x40 % 0x40, 0x80 + cp % 0x40] := by
  have hcont : ∀ n, (0x80 ||| UInt8.ofNat (n % 64)).toNat = 0x80 + n % 0x40 := by
    intro n
    have h : ∀ k < 64, (0x80 ||| UInt8.ofNat k).toNat = 0x80 + k := by decide
    exact h _ (Nat.mod_lt n (by omega))
  have htwo : ∀ k < 32, (0xc0 ||| UInt8.ofNat (k % 32)).toNat = 0xc0 + k := by decide
  have hthree : ∀ k < 16, (0xe0 ||| UInt8.ofNat (k % 16)).toNat = 0xe0 + k := by decide
  have hfour : ∀ k < 8, (0xf0 ||| UInt8.ofNat (k % 8)).toNat = 0xf0 + k := by decide
  rw [utf8Encode]
  split_ifs with h1 h2 h3
  · rw [List.map_cons, List.map_nil, UInt8.toNat_ofNat_of_lt' (show cp < 256 by omega)]
  · rw [List.map_cons, List.map_cons, List.map_nil, htwo _ (by omega), hcont]
  · simp only [List.map_cons, List.map_nil, hthree (cp / 4096) (by omega), hcont]
  · simp only [List.map_cons, List.map_nil, hfour (cp / 262144) (by omega), hcont]

/-- What is decoded is encoded to the bytes that it was decoded from. -/
theorem utf8Encode_of_decode (h : utf8Decode t = (.ok cp, rest)) : t = utf8Encode cp ++ rest := by
  obtain ⟨b, conts, rfl, hsize, hconts, hcp, hvalid, hlen⟩ := utf8Decode_ok h
  have hwhole := utf8Decode_whole.2 ⟨hsize, hconts, hcp, hvalid, hlen⟩
  have hmax := (isValidCodepoint_iff.1 hvalid).1
  have hle : conts.length ≤ 3 := by
    have : utf8CodepointSize cp ≤ 4 := by rw [utf8CodepointSize]; split_ifs <;> omega
    omega
  have hbytes : (b :: conts).map UInt8.toNat = (utf8Encode cp).map UInt8.toNat := by
    rw [utf8Encode_toNat hmax]
    match conts, hle with
    | [], _ =>
      have := utf8Decode_one.1 hwhole
      rw [if_pos (by omega)]
      simp
      omega
    | [c], _ =>
      have := utf8Decode_two.1 hwhole
      rw [if_neg (by omega), if_pos (by omega)]
      simp
      omega
    | [c, d], _ =>
      have := utf8Decode_three.1 hwhole
      rw [if_neg (by omega), if_neg (by omega), if_pos (by omega)]
      simp
      omega
    | [c, d, e], _ =>
      have := utf8Decode_four.1 hwhole
      rw [if_neg (by omega), if_neg (by omega), if_neg (by omega)]
      simp
      omega
  rw [← List.cons_append, List.map_injective_iff.2 (fun _ _ => UInt8.toNat_inj.1) hbytes]

end

/-! ## The codec -/

theorem utf8DecodeAll_nil : utf8DecodeAll [] = .ok [] := by rw [utf8DecodeAll]

theorem utf8DecodeAll_of_ok {t rest : Bytes} {cp : Nat} (h : utf8Decode t = (.ok cp, rest)) :
    utf8DecodeAll t = (utf8DecodeAll rest).map (cp :: ·) := by
  cases t with
  | nil => cases h
  | cons b t =>
      rw [utf8DecodeAll]
      split
      · rename_i cp' rest' h'
        rw [h] at h'
        cases h'
        rfl
      · rename_i h'
        rw [h] at h'
        cases h'

theorem utf8DecodeAll_of_error {b : UInt8} {t rest : Bytes} {e : Errc} (h : utf8Decode (b :: t) = (.error e, rest)) :
    utf8DecodeAll (b :: t) = .error e := by
  rw [utf8DecodeAll]
  split
  · rename_i h'
    rw [h] at h'
    cases h'
  · rename_i h'
    rw [h] at h'
    cases h'
    rfl

/-- What is encoded is decoded. -/
theorem utf8DecodeAll_encode {room : Nat} {cps : List Nat}
    (h : ∀ cp ∈ cps, isValidCodepoint cp ∧ utf8CodepointSize cp ≤ room) :
    utf8DecodeAll (cps.flatMap (utf8EncodeInto room)) = .ok cps := by
  induction cps with
  | nil => exact utf8DecodeAll_nil
  | cons cp cps ih =>
      obtain ⟨hvalid, hroom⟩ := h cp List.mem_cons_self
      rw [List.flatMap_cons, utf8EncodeInto, if_neg (by omega), utf8DecodeAll_of_ok (utf8Decode_utf8Encode hvalid _),
        ih fun cp hcp => h cp (List.mem_cons_of_mem _ hcp)]
      rfl

theorem utf8DecodeAll_flatMap {cps : List Nat} (h : ∀ cp ∈ cps, isValidCodepoint cp = true) :
    utf8DecodeAll (cps.flatMap utf8Encode) = .ok cps := by
  induction cps with
  | nil => exact utf8DecodeAll_nil
  | cons cp cps ih =>
      obtain ⟨hcp, hcps⟩ := List.forall_mem_cons.1 h
      rw [List.flatMap_cons, utf8DecodeAll_of_ok (utf8Decode_utf8Encode hcp _), ih hcps]
      rfl

/-- A text that is decoded is the encoding of its code points, and a text of sequences of the table. -/
theorem utf8DecodeAll_ok {t : Bytes} {cps : List Nat} (h : utf8DecodeAll t = .ok cps) :
    cps.flatMap utf8Encode = t ∧ Utf8WellFormed t := by
  induction t using utf8DecodeAll.induct generalizing cps with
  | case1 =>
      rw [utf8DecodeAll_nil] at h
      cases h
      exact ⟨rfl, .nil⟩
  | case2 b t cp rest hdecode ih =>
      rw [utf8DecodeAll_of_ok hdecode] at h
      cases hrest : utf8DecodeAll rest with
      | error e => rw [hrest] at h; cases h
      | ok cps' =>
          rw [hrest] at h
          cases h
          obtain ⟨hencode, hwell⟩ := ih hrest
          have htext := utf8Encode_of_decode hdecode
          obtain ⟨-, -, -, -, -, -, hvalid, -⟩ := utf8Decode_ok hdecode
          have hwhole := utf8Decode_utf8Encode hvalid []
          rw [List.append_nil] at hwhole
          obtain ⟨row, hrow, hs⟩ := inTable_iff.2 ⟨cp, hwhole⟩
          rw [htext, List.flatMap_cons, hencode]
          exact ⟨rfl, .append hrow hs hwell⟩
  | case3 b t e rest hdecode =>
      rw [utf8DecodeAll] at h
      split at h
      · rename_i h'
        rw [hdecode] at h'
        cases h'
      · cases h

theorem utf8DecodeAll_of_wellFormed {t : Bytes} (h : Utf8WellFormed t) : ∃ cps, utf8DecodeAll t = .ok cps := by
  induction h with
  | nil => exact ⟨[], utf8DecodeAll_nil⟩
  | append hrow hs _ ih =>
      obtain ⟨cp, hdecode⟩ := inTable_iff.1 ⟨_, hrow, hs⟩
      obtain ⟨cps, hcps⟩ := ih
      exact ⟨cp :: cps, by rw [utf8DecodeAll_of_ok (utf8Decode_append hdecode _), List.nil_append, hcps]; rfl⟩

/-- The codec is exact: what is encoded is decoded, and what is decoded are the well-formed texts, each of them the
encoding of its code points. -/
theorem utf8_codec_exact :
    (∀ room cps, (∀ cp ∈ cps, isValidCodepoint cp ∧ utf8CodepointSize cp ≤ room) →
      utf8DecodeAll (cps.flatMap (utf8EncodeInto room)) = .ok cps) ∧
    ∀ t, ((∃ cps, utf8DecodeAll t = .ok cps) ↔ Utf8WellFormed t) ∧
      ∀ cps, utf8DecodeAll t = .ok cps → cps.flatMap utf8Encode = t :=
  ⟨fun _ _ h => utf8DecodeAll_encode h, fun _ =>
    ⟨⟨fun ⟨_, h⟩ => (utf8DecodeAll_ok h).2, utf8DecodeAll_of_wellFormed⟩, fun _ h => (utf8DecodeAll_ok h).1⟩⟩

theorem utf8_codec_exact_euro :
    utf8DecodeAll ([0x24, 0x20ac].flatMap (utf8EncodeInto 3)) = .ok [0x24, 0x20ac] ∧
      [0x24, 0x20ac].flatMap utf8Encode = [0x24, 0xe2, 0x82, 0xac] := by
  have h := utf8_codec_exact.1 3 [0x24, 0x20ac] (by decide)
  exact ⟨h, utf8_codec_exact.2 _ |>.2 _ h⟩

end Rad
