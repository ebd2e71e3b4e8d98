import Mathlib.Data.List.Forall2
import Mathlib.Data.List.Induction
import Mathlib.Data.List.TakeWhile
import Rad.Net.Address

/-!
# Addresses in text

The parser of IPv4 addresses writes each part before it looks at the next one. It and the validator do not read the same
numbers where a decimal number begins with a zero and where the hexadecimal prefix is a capital letter.
-/

namespace Rad.Net

/-! ## The grammar -/

/-- The numbers that a part can be. -/
inductive PartText : Bytes → Nat → Prop where
  | decimal {digits : Bytes} (hne : digits ≠ []) (hdigits : digits.all (isDigitOf 10) = true)
      (hzero : digits.head? = some 0x30 → digits = [0x30]) : PartText digits (valueOf 10 digits)
  | octal {digits : Bytes} (hne : digits ≠ []) (hdigits : digits.all (isDigitOf 8) = true) :
      PartText (0x30 :: digits) (valueOf 8 digits)
  | hexadecimal {letter : UInt8} {digits : Bytes} (hletter : letter = 0x78 ∨ letter = 0x58) (hne : digits ≠ [])
      (hdigits : digits.all (isDigitOf 16) = true) : PartText (0x30 :: letter :: digits) (valueOf 16 digits)

/-- A part is a number that fits into a byte. -/
def PartValue (part : Bytes) (b : UInt8) : Prop := PartText part b.toNat

/-- Four parts are the bytes of an address. -/
def Spells (ipStr : Bytes) (bytes : Bytes) : Prop := bytes.length = 4 ∧ List.Forall₂ PartValue (parts ipStr) bytes

/-! ## Numbers -/

section

variable {base : Nat} {text : Bytes}

theorem takeWhile_eq_self_iff {p : UInt8 → Bool} {t : Bytes} : t.takeWhile p = t ↔ t.all p = true := by
  rw [List.takeWhile_eq_self_iff, List.all_eq_true]

theorem toUint8_ok : (toUint8 base text).2 = true ↔ text ≠ [] ∧ text.all (isDigitOf base) = true ∧ valueOf base text < 256 := by
  rw [toUint8]
  dsimp only
  rw [decide_eq_true_eq]
  constructor
  · rintro ⟨⟨hne, hlt⟩, heq⟩
    rw [heq] at hne hlt
    exact ⟨hne, takeWhile_eq_self_iff.1 heq, hlt⟩
  · rintro ⟨hne, hall, hlt⟩
    have heq := takeWhile_eq_self_iff.2 hall
    rw [heq]
    exact ⟨⟨hne, hlt⟩, rfl⟩

theorem toUint8_value (h : (toUint8 base text).2 = true) : (toUint8 base text).1.toNat = valueOf base text := by
  obtain ⟨hne, hall, hlt⟩ := toUint8_ok.1 h
  rw [toUint8]
  dsimp only
  rw [takeWhile_eq_self_iff.2 hall, if_pos ⟨hne, hlt⟩, UInt8.toNat_ofNat', Nat.mod_eq_of_lt hlt]

end

/-! ## What a part writes -/

/-- What is written for a part, and whether the part is a number. -/
def readPart (part : Bytes) : Option (UInt8 × Bool) :=
  if part = [] then none
  else if part = [0x30] then some (0, true)
  else (partDigits part).map fun (base, digits) => toUint8 base digits

/-- What is written for the parts, up to the first one that is no number. -/
def written : List Bytes → Bytes
  | [] => []
  | part :: rest =>
    match readPart part with
    | none => []
    | some (b, ok) => b :: if ok then written rest else []

theorem fromStringLoop_cons (counter : Nat) (a : Ipv4) (part : Bytes) (rest : List Bytes) :
    fromStringLoop counter a (part :: rest) =
      if counter = 4 then (false, a)
      else
        match readPart part with
        | none => (false, a)
        | some (b, ok) => if ok then fromStringLoop (counter + 1) (a.set counter b) rest else (false, a.set counter b) := by
  rw [fromStringLoop, readPart]
  by_cases hcounter : counter = 4
  · rw [if_pos (.inl hcounter), if_pos hcounter]
  rw [if_neg hcounter]
  by_cases hnil : part = []
  · rw [if_pos (.inr hnil), if_pos hnil]
  rw [if_neg (not_or.2 ⟨hcounter, hnil⟩), if_neg hnil]
  by_cases hzero : part = [0x30]
  · rw [if_pos hzero, if_pos hzero]
    rfl
  rw [if_neg hzero, if_neg hzero]
  cases partDigits part with
  | none => rfl
  | some r => rfl

/-- What the first characters of a part say about its base. -/
theorem partDigits_cases (part : Bytes) :
    (part.head? = some 0x30 → part = [0x30]) ∧ partDigits part = some (10, part) ∨
    (∃ ch digits, part = 0x30 :: ch :: digits ∧ ch ≠ 0x78 ∧ ch ≠ 0x58 ∧ partDigits part = some (8, part)) ∨
    ∃ ch digits, part = 0x30 :: ch :: digits ∧ (ch = 0x78 ∨ ch = 0x58) ∧
      partDigits part = if digits = [] then none else some (16, digits) := by
  unfold partDigits
  split
  · rename_i ch digits
    by_cases hch : ch = 0x78 ∨ ch = 0x58
    · exact .inr (.inr ⟨ch, digits, rfl, hch, if_pos hch⟩)
    · exact .inr (.inl ⟨ch, digits, rfl, fun h => hch (.inl h), fun h => hch (.inr h), if_neg hch⟩)
  · rename_i hother
    refine .inl ⟨fun hhead => ?_, rfl⟩
    cases part with
    | nil => cases hhead
    | cons b t =>
        obtain rfl : b = 0x30 := Option.some.inj hhead
        cases t with
        | nil => rfl
        | cons ch digits => exact absurd rfl (hother ch digits)

theorem valueOf_zero (base : Nat) (digits : Bytes) : valueOf base (0x30 :: digits) = valueOf base digits := by
  rw [valueOf, List.foldl_cons, Nat.mul_zero]
  rfl

theorem toUint8_eq_iff {base : Nat} {text : Bytes} {b : UInt8} :
    toUint8 base text = (b, true) ↔ text ≠ [] ∧ text.all (isDigitOf base) = true ∧ valueOf base text = b.toNat := by
  constructor
  · intro h
    have hok : (toUint8 base text).2 = true := by rw [h]
    obtain ⟨hne, hall, -⟩ := toUint8_ok.1 hok
    have hvalue := toUint8_value hok
    rw [h] at hvalue
    exact ⟨hne, hall, hvalue.symm⟩
  · rintro ⟨hne, hall, hvalue⟩
    have hok := toUint8_ok.2 ⟨hne, hall, hvalue ▸ b.toNat_lt⟩
    exact Prod.ext (UInt8.toNat_inj.1 ((toUint8_value hok).trans hvalue)) hok

/-- A part that is read without an error is a number of the grammar. -/
theorem readPart_ok_iff {part : Bytes} {b : UInt8} : readPart part = some (b, true) ↔ PartValue part b := by
  rw [readPart, PartValue]
  constructor
  · intro h
    split at h
    · cases h
    split at h
    · rename_i hzero
      subst hzero
      cases h
      exact .decimal nofun rfl fun _ => rfl
    rename_i hzero
    rcases partDigits_cases part with ⟨hhead, hdigits⟩ | ⟨ch, digits, rfl, -, -, hdigits⟩ | ⟨ch, digits, rfl, hch, hdigits⟩
    · rw [hdigits] at h
      obtain ⟨hne, hall, hvalue⟩ := toUint8_eq_iff.1 (Option.some.inj h)
      exact hvalue ▸ .decimal hne hall hhead
    · rw [hdigits] at h
      obtain ⟨-, hall, hvalue⟩ := toUint8_eq_iff.1 (Option.some.inj h)
      rw [List.all_cons, Bool.and_eq_true] at hall
      rw [← hvalue, valueOf_zero]
      exact .octal nofun hall.2
    · rw [hdigits] at h
      split at h
      · cases h
      · obtain ⟨hne, hall, hvalue⟩ := toUint8_eq_iff.1 (Option.some.inj h)
        exact hvalue ▸ .hexadecimal hch hne hall
  · generalize hn : b.toNat = n
    intro h
    cases h with
    | decimal hne hall hhead =>
        rw [if_neg hne]
        split
        · rename_i hzero
          subst hzero
          obtain rfl : b = 0 := UInt8.toNat_inj.1 hn
          rfl
        · rename_i hzero
          rcases partDigits_cases part with ⟨-, hdigits⟩ | ⟨ch, digits, rfl, -⟩ | ⟨ch, digits, rfl, -⟩
          · rw [hdigits]
            exact congrArg some (toUint8_eq_iff.2 ⟨hne, hall, hn.symm⟩)
          · cases hhead rfl
          · cases hhead rfl
    | @octal digits hne hall =>
        obtain ⟨ch, more, rfl⟩ := List.exists_cons_of_ne_nil hne
        rw [if_neg (List.cons_ne_nil _ _), if_neg (by simp)]
        rcases partDigits_cases (0x30 :: ch :: more) with ⟨hhead, -⟩ | ⟨_, _, -, -, -, hdigits⟩ | ⟨ch', more', heq, hch, -⟩
        · cases hhead rfl
        · rw [hdigits]
          refine congrArg some (toUint8_eq_iff.2 ⟨List.cons_ne_nil _ _, ?_, (valueOf_zero _ _).trans hn.symm⟩)
          rw [List.all_cons, hall]
          rfl
        · obtain rfl : ch = ch' := (List.cons.inj (List.cons.inj heq).2).1
          rw [List.all_cons, Bool.and_eq_true] at hall
          rcases hch with rfl | rfl <;> cases hall.1
    | @hexadecimal letter digits hletter hne hall =>
        rw [if_neg (List.cons_ne_nil _ _), if_neg (by simp)]
        have hdigits : partDigits (0x30 :: letter :: digits) = some (16, digits) := by
          rw [partDigits, if_pos hletter, if_neg hne]
        rw [hdigits]
        exact congrArg some (toUint8_eq_iff.2 ⟨hne, hall, hn.symm⟩)

/-- What a call leaves in the address: the bytes in front of the counter, what is written, and the rest. -/
theorem fromStringLoop_bytes (ps : List Bytes) {counter : Nat} (h : counter ≤ 4) (a : Ipv4) :
    (fromStringLoop counter a ps).2.bytesStorage =
      a.bytesStorage.take counter ++ ((written ps).take (4 - counter) ++
        a.bytesStorage.drop (counter + ((written ps).take (4 - counter)).length)) := by
  induction ps generalizing counter a with
  | nil => simp [fromStringLoop, written]
  | cons part rest ih =>
      rw [fromStringLoop_cons]
      by_cases hcounter : counter = 4
      · subst hcounter
        simp
      rw [if_neg hcounter, written]
      have hlt : counter < 4 := Nat.lt_of_le_of_ne h hcounter
      obtain ⟨k, hk⟩ : ∃ k, 4 - counter = k + 1 := ⟨3 - counter, by omega⟩
      cases readPart part with
      | none => simp
      | some r =>
          obtain ⟨b, ok⟩ := r
          have hlength := a.length_eq
          have hset : a.bytesStorage.set counter b =
              a.bytesStorage.take counter ++ b :: a.bytesStorage.drop (counter + 1) := by
            rw [List.set_eq_take_append_cons_drop, if_pos (by omega)]
          have hfront : (a.bytesStorage.take counter).length = counter := by
            rw [List.length_take]
            omega
          cases ok with
          | false => simp [Ipv4.set, hset, hk]
          | true =>
              have hmore := ih (by omega : counter + 1 ≤ 4) (a.set counter b)
              rw [show 4 - (counter + 1) = k by omega] at hmore
              have htake : (a.bytesStorage.set counter b).take (counter + 1) = a.bytesStorage.take counter ++ [b] := by
                rw [hset, List.take_append, hfront, Nat.add_sub_cancel_left, List.take_of_length_le (by omega)]
                rfl
              have hdrop (n : Nat) :
                  (a.bytesStorage.set counter b).drop (counter + 1 + n) = a.bytesStorage.drop (counter + 1 + n) :=
                List.drop_set_of_lt (by omega)
              have hbytes : (a.set counter b).bytesStorage = a.bytesStorage.set counter b := rfl
              simp only [if_true, hmore]
              rw [hbytes, htake, hdrop, hk, List.take_succ_cons, List.length_cons, List.append_assoc, Nat.add_right_comm,
                Nat.add_assoc]
              rfl

theorem fromStringLoop_ok_iff (ps : List Bytes) {counter : Nat} (h : counter ≤ 4) (a : Ipv4) :
    (fromStringLoop counter a ps).1 = true ↔ counter + ps.length = 4 ∧ ∀ p ∈ ps, ∃ b, readPart p = some (b, true) := by
  induction ps generalizing counter a with
  | nil => simp [fromStringLoop]
  | cons part rest ih =>
      rw [fromStringLoop_cons, List.forall_mem_cons, List.length_cons]
      by_cases hcounter : counter = 4
      · rw [if_pos hcounter]
        exact iff_of_false nofun fun h => by omega
      rw [if_neg hcounter]
      cases readPart part with
      | none => simp
      | some r =>
          obtain ⟨b, ok⟩ := r
          cases ok with
          | false => simp
          | true =>
              simp only [if_true, ih (by omega : counter + 1 ≤ 4), Option.some.injEq, Prod.mk.injEq, and_true, exists_eq',
                true_and]
              rw [Nat.add_right_comm, Nat.add_assoc]

theorem partValue_of_mem {ps : List Bytes} {bytes : Bytes} (h : List.Forall₂ PartValue ps bytes) :
    ∀ p ∈ ps, ∃ b, PartValue p b := by
  induction h with
  | nil => nofun
  | cons hpart _ ih => exact List.forall_mem_cons.2 ⟨⟨_, hpart⟩, ih⟩

theorem spells_written {ps : List Bytes} (h : ∀ p ∈ ps, ∃ b, readPart p = some (b, true)) :
    List.Forall₂ PartValue ps (written ps) := by
  induction ps with
  | nil => exact .nil
  | cons part rest ih =>
      obtain ⟨⟨b, hb⟩, hrest⟩ := List.forall_mem_cons.1 h
      rw [written, hb]
      exact .cons (readPart_ok_iff.1 hb) (ih hrest)

section

variable (a : Ipv4) (ipStr : Bytes)

theorem fromString_bytes : (a.fromString ipStr).2.bytesStorage =
    (written (parts ipStr)).take 4 ++ a.bytesStorage.drop ((written (parts ipStr)).take 4).length := by
  rw [Ipv4.fromString, fromStringLoop_bytes _ (Nat.zero_le 4), List.take_zero, List.nil_append, Nat.zero_add]

theorem fromString_spells (h : (a.fromString ipStr).1 = true) : Spells ipStr (a.fromString ipStr).2.bytesStorage := by
  obtain ⟨hlength, hparts⟩ := (fromStringLoop_ok_iff _ (Nat.zero_le 4) a).1 h
  have hspells := spells_written hparts
  have hfour : (written (parts ipStr)).length = 4 := by
    rw [← hspells.length_eq]
    omega
  rw [fromString_bytes, List.take_of_length_le (by omega), hfour, List.drop_of_length_le (by rw [a.length_eq]), List.append_nil]
  exact ⟨hfour, hspells⟩

theorem fromString_ok_iff : (a.fromString ipStr).1 = true ↔ ∃ bytes, Spells ipStr bytes := by
  refine ⟨fun h => ⟨_, fromString_spells a ipStr h⟩, fun ⟨bytes, hlength, hspells⟩ => ?_⟩
  refine (fromStringLoop_ok_iff _ (Nat.zero_le 4) a).2 ⟨by rw [hspells.length_eq, hlength], fun p hp => ?_⟩
  obtain ⟨b, hb⟩ := partValue_of_mem hspells p hp
  exact ⟨b, readPart_ok_iff.2 hb⟩

/-- A call that fails leaves the address as it is when what is written for the parts up to the first wrong one is there
already. -/
theorem fromString_unchanged_iff :
    ((a.fromString ipStr).1 = false → (a.fromString ipStr).2 = a) ∧
      ((a.fromString ipStr).1 = true → Spells ipStr (a.fromString ipStr).2.bytesStorage) ↔
    (∃ bytes, Spells ipStr bytes) ∨ (written (parts ipStr)).take 4 <+: a.bytesStorage := by
  rw [and_iff_left (fromString_spells a ipStr), ← fromString_ok_iff a, ← Bool.not_eq_true, imp_iff_not_or, not_not]
  have hsame : (a.fromString ipStr).2 = a ↔ (a.fromString ipStr).2.bytesStorage = a.bytesStorage := by
    rw [Ipv4.mk.injEq]
  rw [hsame, fromString_bytes]
  refine or_congr_right ⟨fun h => ⟨_, h⟩, fun ⟨rest, h⟩ => ?_⟩
  rw [← h, List.drop_left]

/-- `1.2.3` changes three bytes. -/
theorem fromString_changed :
    ¬∀ (a : Ipv4) (ipStr : Bytes), (a.fromString ipStr).1 = false → (a.fromString ipStr).2 = a := by
  intro h
  have hsame := h ⟨[9, 9, 9, 9], rfl⟩ (ascii "1.2.3") (by decide)
  exact absurd hsame (by decide)

end

/-! ## Numbers that the validator and the parser read differently -/

/-- A decimal number that begins with a zero and is not an octal number. -/
def ZeroLed (part : Bytes) : Prop :=
  part.head? = some 0x30 ∧ part.all (isDigitOf 10) = true ∧ valueOf 10 part < 256 ∧ ¬part.all (isDigitOf 8) = true

/-- The hexadecimal prefix with a capital letter. -/
def CapitalPrefix (part : Bytes) : Prop := ∃ digits, part = 0x30 :: 0x58 :: digits

theorem valueOf_mono {base base' : Nat} (h : base ≤ base') (text : Bytes) : valueOf base text ≤ valueOf base' text := by
  -- by the last digit
  induction text using List.reverseRecOn with
  | nil => exact Nat.le_refl _
  | append_singleton text ch ih =>
      rw [valueOf_append, valueOf_append]
      exact Nat.add_le_add_right (Nat.mul_le_mul h ih) _

theorem ZeroLed.not_partValue {part : Bytes} (h : ZeroLed part) (b : UInt8) : ¬PartValue part b := by
  obtain ⟨hhead, hall, -, hoctal⟩ := h
  rw [PartValue]
  generalize b.toNat = n
  intro hpart
  cases hpart with
  | decimal _ _ hzero =>
      rw [hzero hhead] at hoctal
      exact hoctal rfl
  | octal _ hdigits =>
      rw [List.all_cons, hdigits] at hoctal
      exact hoctal rfl
  | hexadecimal hletter =>
      rw [List.all_cons, List.all_cons] at hall
      rcases hletter with rfl | rfl <;> cases hall

theorem isValidPart_nil : isValidPart [] = false := rfl

/-- The parts that the validator takes. -/
theorem isValidPart_iff {part : Bytes} :
    isValidPart part = true ↔ (∃ b, PartValue part b) ∧ ¬CapitalPrefix part ∨ ZeroLed part := by
  have hnumber {n : Nat} (hlt : n < 256) (h : PartText part n) : ∃ b, PartValue part b :=
    ⟨UInt8.ofNat n, by rwa [PartValue, UInt8.toNat_ofNat', Nat.mod_eq_of_lt hlt]⟩
  rw [isValidPart, Bool.or_eq_true]
  constructor
  · rintro (h | h)
    · obtain ⟨hne, hall, hlt⟩ := toUint8_ok.1 h
      by_cases hhead : part.head? = some 0x30
      · by_cases hoctal : part.all (isDigitOf 8) = true
        · obtain ⟨rest, rfl⟩ : ∃ rest, part = 0x30 :: rest := List.head?_eq_some_iff.1 hhead
          refine .inl ⟨?_, ?_⟩
          · cases rest with
            | nil => exact hnumber hlt (.decimal hne hall fun _ => rfl)
            | cons ch more =>
                have hvalue : valueOf 8 (ch :: more) ≤ valueOf 10 (0x30 :: ch :: more) :=
                  (valueOf_mono (by decide) _).trans_eq (valueOf_zero _ _).symm
                rw [List.all_cons, Bool.and_eq_true] at hoctal
                exact hnumber (hvalue.trans_lt hlt) (.octal (List.cons_ne_nil _ _) hoctal.2)
          · rintro ⟨digits, heq⟩
            rw [heq, List.all_cons, List.all_cons] at hoctal
            cases hoctal
        · exact .inr ⟨hhead, hall, hlt, hoctal⟩
      · refine .inl ⟨hnumber hlt (.decimal hne hall fun h => absurd h hhead), ?_⟩
        rintro ⟨digits, rfl⟩
        exact hhead rfl
    · split at h
      · rename_i hprefix
        obtain ⟨hlength, hzero, hx⟩ := hprefix
        obtain ⟨digits, rfl⟩ : ∃ digits, part = 0x30 :: 0x78 :: digits := by
          match part, hlength, hzero, hx with
          | _ :: _ :: digits, _, hzero, hx => exact ⟨digits, by cases hzero; cases hx; rfl⟩
        obtain ⟨hne, hall, hlt⟩ := toUint8_ok.1 h
        refine .inl ⟨hnumber hlt (.hexadecimal (.inl rfl) hne hall), ?_⟩
        rintro ⟨_, heq⟩
        cases heq
      split at h
      · rename_i hzero
        obtain ⟨hne, hall, hlt⟩ := toUint8_ok.1 h
        obtain ⟨rest, rfl⟩ : ∃ rest, part = 0x30 :: rest := by
          rw [← List.head?_eq_getElem?] at hzero
          exact List.head?_eq_some_iff.1 hzero
        refine .inl ⟨?_, ?_⟩
        · cases rest with
          | nil => exact hnumber (n := 0) (by decide) (.decimal hne rfl fun _ => rfl)
          | cons ch more =>
              rw [valueOf_zero] at hlt
              rw [List.all_cons, Bool.and_eq_true] at hall
              exact hnumber hlt (.octal (List.cons_ne_nil _ _) hall.2)
        · rintro ⟨digits, heq⟩
          rw [heq, List.all_cons, List.all_cons] at hall
          cases hall
      · cases h
  · rintro (⟨⟨b, hpart⟩, hcapital⟩ | ⟨hhead, hall, hlt, -⟩)
    · have hb := b.toNat_lt
      rw [PartValue] at hpart
      generalize b.toNat = n at hpart hb
      cases hpart with
      | decimal hne hall => exact .inl (toUint8_ok.2 ⟨hne, hall, hb⟩)
      | @octal digits hne hall =>
          obtain ⟨ch, more, rfl⟩ := List.exists_cons_of_ne_nil hne
          refine .inr ?_
          have hok : (toUint8 8 (0x30 :: ch :: more)).2 = true := by
            rw [toUint8_ok, List.all_cons, hall, valueOf_zero]
            exact ⟨List.cons_ne_nil _ _, rfl, hb⟩
          rw [if_neg]
          · exact (if_pos rfl).trans hok
          · rintro ⟨-, -, hx⟩
            obtain rfl : ch = 0x78 := Option.some.inj hx
            cases hall
      | @hexadecimal letter digits hletter hne hall =>
          rcases hletter with rfl | rfl
          · refine .inr ?_
            rw [if_pos]
            · exact toUint8_ok.2 ⟨hne, hall, hb⟩
            · exact ⟨Nat.add_lt_add_right (List.length_pos_of_ne_nil hne) 2, rfl, rfl⟩
          · exact absurd ⟨digits, rfl⟩ hcapital
    · refine .inl (toUint8_ok.2 ⟨?_, hall, hlt⟩)
      rintro rfl
      cases hhead

theorem isValidIpv4Loop_iff (ps : List Bytes) (counter : Nat) :
    isValidIpv4Loop (counter + 1) ps = true ↔ ps.length = counter ∧ ∀ p ∈ ps, isValidPart p = true := by
  induction ps generalizing counter with
  | nil =>
      rw [isValidIpv4Loop, beq_iff_eq, Nat.add_eq_right, List.length_nil, eq_comm]
      exact ⟨fun h => ⟨h, nofun⟩, And.left⟩
  | cons part rest ih =>
      rw [isValidIpv4Loop, List.forall_mem_cons, List.length_cons]
      simp only [Nat.add_sub_cancel]
      cases counter with
      | zero => simp
      | succ counter =>
          by_cases hnil : part = []
          · subst hnil
            simp [isValidPart_nil]
          · rw [if_neg (not_or.2 ⟨hnil, Nat.succ_ne_zero _⟩)]
            by_cases hvalid : isValidPart part = true
            · rw [if_pos hvalid, ih, Nat.add_right_cancel_iff, and_iff_right hvalid]
            · simp [hvalid]

theorem isValidIpv4_iff {s : Bytes} : isValidIpv4 s = true ↔ (parts s).length = 4 ∧ ∀ p ∈ parts s, isValidPart p = true :=
  isValidIpv4Loop_iff _ 4

/-! ## Whether they agree -/

section

variable (inetPton : Bytes → Option Bytes) (ipStr : Bytes)

def IsIpv4 : Prop := ∃ bytes, Spells ipStr bytes

/-- The text of an IPv6 address has no byte that ends a string. -/
def IsIpv6 : Prop := 0 ∉ ipStr ∧ (inetPton ipStr).isSome = true

structure Agrees : Prop where
  ipv4 : ∀ a : Ipv4, isValidIpv4 ipStr = true ↔ (a.fromString ipStr).1 = true
  ipv6 : isValidIpv6 inetPton ipStr = true ↔ (ipv6FromString inetPton ipStr).isSome = true
  /-- No text that only begins with an address is taken. -/
  whole4 : (isValidIpv4 ipStr = true ∨ ∃ a : Ipv4, (a.fromString ipStr).1 = true) → ∀ t, t <+: ipStr → IsIpv4 t → IsIpv4 ipStr
  whole6 : (isValidIpv6 inetPton ipStr = true ∨ (ipv6FromString inetPton ipStr).isSome = true) →
    ∀ t, t <+: ipStr → IsIpv6 inetPton t → IsIpv6 inetPton ipStr
  endpoint : ∀ port, (endpoint inetPton ipStr port).isSome = true ↔ IsIpv4 ipStr ∨ IsIpv6 inetPton ipStr

/-- The parts are numbers, but one of them only for the validator. -/
def HasZeroLed : Prop :=
  (parts ipStr).length = 4 ∧ (∀ p ∈ parts ipStr, (∃ b, PartValue p b) ∧ ¬CapitalPrefix p ∨ ZeroLed p) ∧
    ∃ p ∈ parts ipStr, ZeroLed p

/-- The parts are numbers, but one of them only for the parser. -/
def HasCapitalPrefix : Prop :=
  (parts ipStr).length = 4 ∧ (∀ p ∈ parts ipStr, ∃ b, PartValue p b) ∧ ∃ p ∈ parts ipStr, CapitalPrefix p

/-- There is an address in front of a zero. -/
def ZeroAfterIpv6 : Prop := 0 ∈ ipStr ∧ ipStr.length ≤ 100 ∧ (inetPton (zeroTerminated ipStr)).isSome = true

variable {inetPton ipStr}

theorem fromString_parts_iff (a : Ipv4) :
    (a.fromString ipStr).1 = true ↔ (parts ipStr).length = 4 ∧ ∀ p ∈ parts ipStr, ∃ b, PartValue p b := by
  rw [Ipv4.fromString, fromStringLoop_ok_iff _ (Nat.zero_le 4), Nat.zero_add]
  simp only [readPart_ok_iff]

theorem zeroTerminated_eq_self (h : 0 ∉ ipStr) : zeroTerminated ipStr = ipStr := by
  rw [zeroTerminated, List.takeWhile_eq_self_iff]
  exact fun b hb => decide_eq_true fun heq => h (heq ▸ hb)

theorem zero_not_mem_zeroTerminated : 0 ∉ zeroTerminated ipStr := fun h => by
  rw [zeroTerminated] at h
  cases List.mem_takeWhile_imp h

theorem isValidIpv4_iff_fromString (hzero : ¬HasZeroLed ipStr) (hcapital : ¬HasCapitalPrefix ipStr) (a : Ipv4) :
    isValidIpv4 ipStr = true ↔ (a.fromString ipStr).1 = true := by
  rw [isValidIpv4_iff, fromString_parts_iff]
  constructor
  · rintro ⟨hlength, hparts⟩
    refine ⟨hlength, fun p hp => ?_⟩
    rcases isValidPart_iff.1 (hparts p hp) with ⟨hpart, -⟩ | hled
    · exact hpart
    · exact absurd ⟨hlength, fun p hp => isValidPart_iff.1 (hparts p hp), p, hp, hled⟩ hzero
  · rintro ⟨hlength, hparts⟩
    refine ⟨hlength, fun p hp => isValidPart_iff.2 (.inl ⟨hparts p hp, fun hprefix => ?_⟩)⟩
    exact hcapital ⟨hlength, hparts, p, hp, hprefix⟩

/-- The validators and the parsers agree, and there is an endpoint for each address and for nothing else, but for three
kinds of texts. -/
theorem agrees_iff (hmax : ∀ t a, inetPton t = some a → t.length ≤ 45) (ipStr : Bytes) :
    Agrees inetPton ipStr ↔ ¬HasZeroLed ipStr ∧ ¬HasCapitalPrefix ipStr ∧ ¬ZeroAfterIpv6 inetPton ipStr := by
  constructor
  · intro h
    have hipv4 := h.ipv4 .any
    rw [isValidIpv4_iff, fromString_parts_iff] at hipv4
    refine ⟨fun ⟨hlength, hparts, p, hp, hled⟩ => ?_, fun ⟨hlength, hparts, p, hp, hprefix⟩ => ?_,
      fun ⟨hmem, hlength, hsome⟩ => ?_⟩
    · obtain ⟨-, hall⟩ := hipv4.1 ⟨hlength, fun p hp => isValidPart_iff.2 (hparts p hp)⟩
      obtain ⟨b, hb⟩ := hall p hp
      exact hled.not_partValue b hb
    · obtain ⟨-, hall⟩ := hipv4.2 ⟨hlength, hparts⟩
      rcases isValidPart_iff.1 (hall p hp) with ⟨-, hnot⟩ | hled
      · exact hnot hprefix
      · obtain ⟨b, hb⟩ := hparts p hp
        exact hled.not_partValue b hb
    · have hfrom : (ipv6FromString inetPton ipStr).isSome = true := by
        rw [ipv6FromString, if_neg (Nat.not_lt.2 hlength)]
        exact hsome
      exact (h.whole6 (.inr hfrom) (zeroTerminated ipStr) (List.takeWhile_prefix _) ⟨zero_not_mem_zeroTerminated, hsome⟩).1 hmem
  · rintro ⟨hzero, hcapital, hcut⟩
    have hipv4 := isValidIpv4_iff_fromString hzero hcapital
    have hfour : isValidIpv4 ipStr = true ↔ IsIpv4 ipStr := (hipv4 .any).trans (fromString_ok_iff _ _)
    -- a text without a zero is what `inet_pton` is given
    have hsix : (isValidIpv6 inetPton ipStr = true ↔ IsIpv6 inetPton ipStr) ∧
        ((ipv6FromString inetPton ipStr).isSome = true ↔ IsIpv6 inetPton ipStr) := by
      rw [isValidIpv6, ipv6FromString, IsIpv6]
      by_cases hmem : 0 ∈ ipStr
      · have hnone : ipStr.length ≤ 100 → (inetPton (zeroTerminated ipStr)).isSome = false := fun hlength =>
          Bool.eq_false_iff.2 fun hsome => hcut ⟨hmem, hlength, hsome⟩
        constructor <;> refine iff_of_false ?_ fun h => h.1 hmem <;> split
        · exact Bool.false_ne_true
        · rw [hnone (by omega)]
          exact Bool.false_ne_true
        · exact Bool.false_ne_true
        · rw [hnone (by omega)]
          exact Bool.false_ne_true
      · rw [zeroTerminated_eq_self hmem, and_iff_right hmem]
        have hlength (h : 45 < ipStr.length) : inetPton ipStr = none :=
          Option.eq_none_iff_forall_ne_some.2 fun a ha => Nat.not_lt.2 (hmax _ _ ha) h
        constructor <;> split
        · rename_i hlong
          rw [hlength hlong]
          rfl
        · rfl
        · rename_i hlong
          rw [hlength (by omega)]
        · rfl
    refine ⟨hipv4, hsix.1.trans hsix.2.symm, ?_, ?_, fun port => ?_⟩
    · rintro (h | ⟨a, h⟩) t - -
      · exact hfour.1 h
      · exact (fromString_ok_iff a _).1 h
    · rintro (h | h) t - -
      · exact hsix.1.1 h
      · exact hsix.2.1 h
    · rw [endpoint]
      by_cases h4 : isValidIpv4 ipStr = true
      · have hparsed := (hipv4 .any).1 h4
        rw [if_pos h4, Option.isSome_map, Ipv4.ofString, if_pos hparsed]
        exact iff_of_true rfl (.inl (hfour.1 h4))
      · rw [if_neg h4, ← hfour, or_iff_right h4]
        by_cases h6 : isValidIpv6 inetPton ipStr = true
        · rw [if_pos h6, Option.isSome_map, hsix.2]
        · rw [if_neg h6, ← hsix.1]
          exact iff_of_false nofun h6

/-- What `inet_pton` is for the texts that are shorter than the loopback address and for this address. -/
def loopback (t : Bytes) : Option Bytes := if t = ascii "::1" then some (List.replicate 15 0 ++ [1]) else none

theorem loopback_length (t a : Bytes) (h : loopback t = some a) : t.length ≤ 45 := by
  rw [loopback] at h
  split at h
  · rename_i heq
    rw [heq]
    decide
  · cases h

/-- The validator takes the address in front of a zero, the parser the whole text. -/
theorem agrees_iff_loopback : ¬Agrees loopback (ascii "::1" ++ [0] ++ ascii "1") := fun h =>
  ((agrees_iff loopback_length _).1 h).2.2 ⟨by decide, by decide, by decide⟩

/-- `08.1.1.1` is valid, but it is not parsed. -/
theorem not_agrees : ¬∀ inetPton : Bytes → Option Bytes, (∀ t a, inetPton t = some a → t.length ≤ 45) →
    ∀ ipStr, Agrees inetPton ipStr := by
  intro h
  have hparsed := ((h loopback loopback_length (ascii "08.1.1.1")).ipv4 .any).1 (by decide)
  exact absurd hparsed (by decide)

end

end Rad.Net
