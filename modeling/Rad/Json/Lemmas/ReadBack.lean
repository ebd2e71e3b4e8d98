import Rad.Json.ReadBack
import Rad.Json.Lemmas.Integers
import Rad.Json.Lemmas.Serializer

/-!
# The text of a value is JSON

What is written for a value is in the grammar, and denotes what is read back.
-/

namespace Rad.Json

variable {opts : SerializeOptions} {doubleToChars : UInt64 → Option Bytes}

/-! ## Characters -/

theorem utf8EncodeChar_ascii {c : Char} (h : c.toNat < 0x80) : String.utf8EncodeChar c = [UInt8.ofNat c.toNat] := by
  rw [String.utf8EncodeChar]
  exact if_pos (show c.toNat ≤ 127 by omega)

theorem utf8EncodeChar_high {c : Char} (h : 0x80 ≤ c.toNat) : ∀ b ∈ String.utf8EncodeChar c, 0x80 ≤ b := by
  have hbyte : ∀ n k, 0x80 ≤ k → n + k < 256 → (0x80 : UInt8) ≤ UInt8.ofNat (n + k) := by
    intro n k hk hlt
    rw [UInt8.le_iff_toNat_le, UInt8.toNat_ofNat', Nat.mod_eq_of_lt hlt]
    exact Nat.le_trans hk (Nat.le_add_left k n)
  intro b hb
  have hnot : ¬c.val.toNat ≤ 127 := fun hle => absurd h (Nat.not_le.2 (Nat.lt_succ_of_le hle))
  rw [String.utf8EncodeChar] at hb
  simp only [hnot, if_false] at hb
  split at hb
  · simp only [List.mem_cons, List.not_mem_nil, or_false] at hb
    rcases hb with rfl | rfl <;> exact hbyte _ _ (by omega) (by omega)
  split at hb
  · simp only [List.mem_cons, List.not_mem_nil, or_false] at hb
    rcases hb with rfl | rfl | rfl <;> exact hbyte _ _ (by omega) (by omega)
  · simp only [List.mem_cons, List.not_mem_nil, or_false] at hb
    rcases hb with rfl | rfl | rfl | rfl <;> exact hbyte _ _ (by omega) (by omega)

theorem hasShortEscape_char {n : Nat} (hn : n < 0x80) (h : hasShortEscape opts (UInt8.ofNat n) = true) :
    (escapeChar (UInt8.ofNat n), charReadBack (Char.ofNat n)) ∈ shortEscapes := by
  have hall : ∀ n < 0x80, ∀ solidus, hasShortEscape ⟨false, solidus⟩ (UInt8.ofNat n) = true →
      (escapeChar (UInt8.ofNat n), charReadBack (Char.ofNat n)) ∈ shortEscapes := by decide
  exact hall n hn opts.escapeSolidus h

theorem hexStr_char {n : Nat} (hn : n ≤ 0x1f) (h : hasShortEscape opts (UInt8.ofNat n) = false) :
    hexStr (UInt8.ofNat n) = 0x5c :: 0x75 :: (hexStr (UInt8.ofNat n)).drop 2 ∧
    IsHex4 ((hexStr (UInt8.ofNat n)).drop 2) ∧
    fromHex ((hexStr (UInt8.ofNat n)).drop 2) = (charReadBack (Char.ofNat n)).toNat := by
  have hall : ∀ n < 0x20, ∀ solidus, hasShortEscape ⟨false, solidus⟩ (UInt8.ofNat n) = false →
      hexStr (UInt8.ofNat n) = 0x5c :: 0x75 :: (hexStr (UInt8.ofNat n)).drop 2 ∧
      IsHex4 ((hexStr (UInt8.ofNat n)).drop 2) ∧
      fromHex ((hexStr (UInt8.ofNat n)).drop 2) = (charReadBack (Char.ofNat n)).toNat := by decide
  exact hall n (Nat.lt_succ_of_le hn) opts.escapeSolidus h

theorem plain_char {n : Nat} (hn : n < 0x80) (hcontrol : 0x1f < n) (h : hasShortEscape opts (UInt8.ofNat n) = false) :
    [UInt8.ofNat n] = String.utf8EncodeChar (charReadBack (Char.ofNat n)) ∧ 0x20 ≤ (charReadBack (Char.ofNat n)).toNat ∧
    charReadBack (Char.ofNat n) ≠ '"' ∧ charReadBack (Char.ofNat n) ≠ '\\' := by
  have hall : ∀ n < 0x80, 0x1f < n → ∀ solidus, hasShortEscape ⟨false, solidus⟩ (UInt8.ofNat n) = false →
      [UInt8.ofNat n] = String.utf8EncodeChar (charReadBack (Char.ofNat n)) ∧
      0x20 ≤ (charReadBack (Char.ofNat n)).toNat ∧ charReadBack (Char.ofNat n) ≠ '"' ∧
      charReadBack (Char.ofNat n) ≠ '\\' := by decide
  exact hall n hn hcontrol opts.escapeSolidus h

theorem escape_ascii {c : Char} (hc : c.toNat < 0x80) : CharText (escape opts (UInt8.ofNat c.toNat)) (charReadBack c) := by
  have hchar : Char.ofNat c.toNat = c := Char.ofNat_toNat c
  have hle : UInt8.ofNat c.toNat ≤ 0x1f ↔ c.toNat ≤ 0x1f := by
    rw [UInt8.le_iff_toNat_le, UInt8.toNat_ofNat', Nat.mod_eq_of_lt (by omega)]
    rfl
  rw [escape]
  split
  · rename_i hshort
    have hmem := hasShortEscape_char hc hshort
    rw [hchar] at hmem
    exact .short hmem
  rename_i hshort
  rw [Bool.not_eq_true] at hshort
  split
  · rename_i hcontrol
    obtain ⟨htext, hdigits, hvalue⟩ := hexStr_char (hle.1 hcontrol) hshort
    rw [hchar] at hvalue
    rw [htext]
    exact .unicode hdigits hvalue
  · rename_i hcontrol
    obtain ⟨htext, hge, hquote, hsolidus⟩ := plain_char hc (Nat.lt_of_not_le (mt hle.2 hcontrol)) hshort
    rw [hchar] at htext hge hquote hsolidus
    rw [htext]
    exact .unescaped hge hquote hsolidus

theorem charReadBack_high {c : Char} (h : 0x80 ≤ c.toNat) : charReadBack c = c := by
  rw [charReadBack, if_neg]
  omega

theorem escape_high {b : UInt8} (h : 0x80 ≤ b) : escape opts b = [b] := by
  have hall : ∀ n < 256, (0x80 : UInt8) ≤ UInt8.ofNat n → ∀ solidus, escape ⟨false, solidus⟩ (UInt8.ofNat n) = [UInt8.ofNat n] := by
    decide +kernel
  have := hall b.toNat b.toNat_lt (by rwa [UInt8.ofNat_toNat]) opts.escapeSolidus
  rwa [UInt8.ofNat_toNat] at this

theorem escaped_high {s : Bytes} (h : ∀ b ∈ s, 0x80 ≤ b) : escaped opts s = s := by
  induction s with
  | nil => rfl
  | cons b s ih =>
      rw [escaped_cons, escape_high (h b List.mem_cons_self), ih fun c hc => h c (List.mem_cons_of_mem b hc)]
      rfl

theorem escaped_append (s t : Bytes) : escaped opts (s ++ t) = escaped opts s ++ escaped opts t := List.flatMap_append

/-- What is written for a character of a string. -/
theorem escaped_char (c : Char) : CharText (escaped opts (String.utf8EncodeChar c)) (charReadBack c) := by
  rcases Nat.lt_or_ge c.toNat 0x80 with hc | hc
  · rw [utf8EncodeChar_ascii hc, escaped_cons, escaped_nil, List.append_nil]
    exact escape_ascii hc
  · have hne : ∀ d : Char, d.toNat < 0x80 → c ≠ d := fun d hd heq => by rw [heq] at hc; omega
    rw [escaped_high (utf8EncodeChar_high hc), charReadBack_high hc]
    exact .unescaped (by omega) (hne '"' (by decide)) (hne '\\' (by decide))

theorem escaped_chars (s : List Char) : StringText (escaped opts (utf8 s)) (s.map charReadBack) := by
  induction s with
  | nil => exact .nil
  | cons c s ih =>
      rw [utf8, List.flatMap_cons, escaped_append]
      exact .cons (escaped_char c) ih

theorem escaped_readBack {s : Bytes} (h : ∃ cs, s = utf8 cs) : StringText (escaped opts s) (stringReadBack s) := by
  obtain ⟨cs, rfl⟩ := h
  have htext := @escaped_chars opts (chars (utf8 cs))
  rwa [utf8_chars] at htext

/-! ## Integers -/

theorem toChars_decimal (n : Nat) : IsDecimal (toChars 10 n) ∧ fromDigits (toChars 10 n) = n := by
  have hdigit : ∀ d < 10, IsDecimal [(Nat.digitChar d).toNat.toUInt8] ∧ fromDigits [(Nat.digitChar d).toNat.toUInt8] = d := by
    decide
  -- by the last digit
  induction n using Nat.strongRecOn with
  | ind n ih =>
      rcases Nat.lt_or_ge n 10 with h | h
      · rw [toChars_of_lt h]
        exact hdigit n h
      · obtain ⟨⟨hne, hall, hzero⟩, hvalue⟩ := ih (n / 10) (Nat.div_lt_self (by omega) (by decide))
        obtain ⟨⟨-, hlast, -⟩, hlastValue⟩ := hdigit (n % 10) (Nat.mod_lt _ (by decide))
        rw [toChars_of_le (by decide) h]
        refine ⟨⟨List.append_ne_nil_of_left_ne_nil hne _, fun b hb => ?_, fun hhead => ?_⟩, ?_⟩
        · exact (List.mem_append.1 hb).elim (hall b) (hlast b)
        · rw [List.head?_append_of_ne_nil _ hne] at hhead
          rw [hzero hhead] at hvalue
          have hvalue : 0 = n / 10 := hvalue
          omega
        · have hlastValue : (Nat.digitChar (n % 10)).toNat.toUInt8.toNat - 0x30 = n % 10 := by
            simpa [fromDigits] using hlastValue
          rw [fromDigits_append, hvalue, hlastValue]
          omega

theorem toCharsInt_text (i : Int) : IntegerText (toCharsInt i) i := by
  obtain ⟨hdecimal, hvalue⟩ := toChars_decimal i.natAbs
  rw [toCharsInt]
  split
  · have h := IntegerText.minus hdecimal
    rwa [hvalue, show -(i.natAbs : Int) = i by omega] at h
  · have h := IntegerText.plain hdecimal
    rwa [hvalue, show (i.natAbs : Int) = i by omega] at h

/-! ## Values -/

theorem textElements_elements {v : Value} {vs : List Value} {ws : Bytes} (hws : WhiteSpace ws)
    (h : ∀ w ∈ v :: vs, Text (.value w.readBack) (w.text opts doubleToChars)) :
    Text (.elements (Value.elementsReadBack (v :: vs))) (ws ++ Value.textElements opts doubleToChars (v :: vs)) := by
  have hv := h v List.mem_cons_self
  induction vs generalizing v ws with
  | nil =>
      rw [Value.textElements]
      exact .lastElement hws hv ((fun _ h => by cases h) : WhiteSpace [])
  | cons w vs ih =>
      have hrest := fun x hx => h x (List.mem_cons_of_mem v hx)
      have hws' : WhiteSpace [0x20] := by decide
      rw [Value.textElements, List.append_assoc]
      exact .element hws hv ((fun _ h => by cases h) : WhiteSpace []) (ih hws' hrest (hrest w List.mem_cons_self))

theorem keySymbols_eq : keySymbols = [0x22, 0x3a, 0x20] := rfl

theorem commaSpace_eq : ascii ", " = [0x2c, 0x20] := rfl

theorem textMembers_members {kv : Bytes × Value} {o : Members} {ws : Bytes} (hws : WhiteSpace ws)
    (hkeys : ∀ kw ∈ kv :: o, ∃ s, kw.1 = utf8 s)
    (h : ∀ kw ∈ kv :: o, Text (.value kw.2.readBack) (kw.2.text opts doubleToChars)) :
    Text (.members (Value.membersReadBack (kv :: o))) (ws ++ Value.textMembers opts doubleToChars (kv :: o)) := by
  have hkey := @escaped_readBack opts _ (hkeys kv List.mem_cons_self)
  have hv := h kv List.mem_cons_self
  have hnone : WhiteSpace [] := nofun
  have hspace : WhiteSpace [0x20] := by decide
  induction o generalizing kv ws with
  | nil =>
      have htext := Text.lastMember hws hkey hnone hspace hv hnone
      simpa [Value.textMembers, Value.membersReadBack, keyText, keySymbols_eq, commaSpace_eq] using htext
  | cons kw o ih =>
      have hrest := fun x hx => h x (List.mem_cons_of_mem kv hx)
      have hkeys' := fun x hx => hkeys x (List.mem_cons_of_mem kv hx)
      have hmembers := ih hspace hkeys' hrest (escaped_readBack (hkeys' kw List.mem_cons_self)) (hrest kw List.mem_cons_self)
      have htext := Text.member hws hkey hnone hspace hv hnone hmembers
      simpa [Value.textMembers, Value.membersReadBack, keyText, keySymbols_eq, commaSpace_eq] using htext

theorem toInt_range (i : Int64) : -2 ^ 63 ≤ i.toInt ∧ i.toInt < 2 ^ 64 := by
  have := i.le_toInt
  have := i.toInt_lt
  omega

/-- The text of a value without doubles denotes what is read back. -/
theorem text_readBack {v : Value} (hv : v.Plain) : Text (.value v.readBack) (v.text opts doubleToChars) := by
  induction hv with
  | null => exact .null
  | bool b =>
      cases b with
      | true => exact .true
      | false => exact .false
  | int64 i => exact .int (toCharsInt_text i.toInt) (toInt_range i)
  | uint64 u =>
      have htext := toCharsInt_text u.toNat
      have hlt := u.toNat_lt
      exact .int htext ⟨by omega, by omega⟩
  | string s => exact .string (escaped_readBack ⟨s, rfl⟩)
  | @array a _ ih =>
      cases a with
      | nil => exact .emptyArray (nofun : WhiteSpace [])
      | cons v vs => exact .array (textElements_elements (nofun : WhiteSpace []) ih)
  | @object o hkeys _ _ ih =>
      cases o with
      | nil => exact .emptyObject (nofun : WhiteSpace [])
      | cons kv o => exact .object (textMembers_members (nofun : WhiteSpace []) hkeys ih)

theorem Value.Plain.noDoubleElements {a : List Value} (h : ∀ v ∈ a, v.NoDouble) : Value.NoDoubleElements a := by
  induction a with
  | nil => trivial
  | cons v a ih => exact ⟨h v List.mem_cons_self, ih fun w hw => h w (List.mem_cons_of_mem v hw)⟩

theorem Value.Plain.noDoubleMembers {o : Members} (h : ∀ kv ∈ o, kv.2.NoDouble) : Value.NoDoubleMembers o := by
  induction o with
  | nil => trivial
  | cons kv o ih => exact ⟨h kv List.mem_cons_self, ih fun kw hkw => h kw (List.mem_cons_of_mem kv hkw)⟩

theorem Value.Plain.noDouble {v : Value} (hv : v.Plain) : v.NoDouble := by
  induction hv with
  | array _ ih => exact Value.Plain.noDoubleElements ih
  | object _ _ _ ih => exact Value.Plain.noDoubleMembers ih
  | _ => trivial

end Rad.Json
