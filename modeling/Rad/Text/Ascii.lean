import Mathlib.Algebra.Group.Int.Defs
import Mathlib.Algebra.GroupWithZero.Nat
import Mathlib.Data.List.Basic

/-!
# Strings and ASCII case (include/rad/string.h)

A `std::string` or `std::string_view` is its list of bytes.
-/

namespace Rad

abbrev Bytes := List UInt8

/-- The bytes of an ASCII literal of the source. -/
def ascii (s : String) : Bytes := s.toUTF8.data.toList

def tolowerCh (ch : UInt8) : UInt8 := if 0x41 ≤ ch ∧ ch ≤ 0x5a then ch - 0x41 + 0x61 else ch

def toLower (s : Bytes) : Bytes := s.map tolowerCh

def iequal (a b : Bytes) : Bool :=
  a.length == b.length && (a.zip b).all fun p => tolowerCh p.1 == tolowerCh p.2

theorem tolowerCh_idem (ch : UInt8) : tolowerCh (tolowerCh ch) = tolowerCh ch := by
  have h : ∀ n < 256, tolowerCh (tolowerCh (UInt8.ofNat n)) = tolowerCh (UInt8.ofNat n) := by decide +kernel
  simpa using h ch.toNat ch.toNat_lt

@[simp] theorem toLower_idem (s : Bytes) : toLower (toLower s) = toLower s := by
  simp [toLower, tolowerCh_idem]

@[simp] theorem length_toLower (s : Bytes) : (toLower s).length = s.length := by simp [toLower]

@[simp] theorem toLower_nil : toLower [] = [] := rfl

theorem iequal_iff {a b : Bytes} : iequal a b = true ↔ toLower a = toLower b := by
  simp only [iequal, toLower, Bool.and_eq_true, beq_iff_eq, List.all_eq_true]
  constructor
  · rintro ⟨hlen, hall⟩
    apply List.ext_getElem (by simpa using hlen)
    intro i h1 h2
    simp only [List.length_map] at h1 h2
    have hz : i < (a.zip b).length := by rw [List.length_zip]; omega
    simpa using hall _ (List.getElem_mem hz)
  · intro h
    have hlen : a.length = b.length := by simpa using congrArg List.length h
    refine ⟨hlen, ?_⟩
    rintro ⟨x, y⟩ hp
    obtain ⟨i, hi, he⟩ := List.getElem_of_mem hp
    rw [List.length_zip] at hi
    simp only [List.getElem_zip, Prod.mk.injEq] at he
    have := congrArg (·[i]?) h
    simp only [List.getElem?_map] at this
    rw [List.getElem?_eq_getElem (by omega), List.getElem?_eq_getElem (by omega)] at this
    simpa [he.1, he.2] using this

theorem iequal_self (a : Bytes) : iequal a a = true := iequal_iff.mpr rfl

theorem iequal_comm (a b : Bytes) : iequal a b = iequal b a := by
  rw [Bool.eq_iff_iff, iequal_iff, iequal_iff, eq_comm]

/-! ## Numbers in text (`to_numeric` of include/rad/string.h, `std::to_chars`)

The digits of all the bases up to 16; a number is written with small letters.
-/

def digitOf (ch : UInt8) : Option Nat :=
  if 0x30 ≤ ch ∧ ch ≤ 0x39 then some (ch.toNat - 0x30)
  else if 0x61 ≤ ch ∧ ch ≤ 0x66 then some (ch.toNat - 0x61 + 10)
  else if 0x41 ≤ ch ∧ ch ≤ 0x46 then some (ch.toNat - 0x41 + 10)
  else none

def isDigitOf (base : Nat) (ch : UInt8) : Bool := (digitOf ch).any (· < base)

def valueOf (base : Nat) (text : Bytes) : Nat := text.foldl (fun n ch => base * n + (digitOf ch).getD 0) 0

/-- `to_numeric` of an unsigned type of `bits` bits: all of the text is the number. -/
def toNumeric (bits base : Nat) (text : Bytes) : Option Nat :=
  if text ≠ [] ∧ text.all (isDigitOf base) = true ∧ valueOf base text < 2 ^ bits then some (valueOf base text) else none

/-- `std::to_chars`, `std::to_string`. -/
def toChars (base n : Nat) : Bytes := (Nat.toDigits base n).map fun c => c.toNat.toUInt8

/-! ## Reading what is written -/

theorem digitOf_digitChar {d : Nat} (h : d < 16) : digitOf (Nat.digitChar d).toNat.toUInt8 = some d := by
  have hall : ∀ d < 16, digitOf (Nat.digitChar d).toNat.toUInt8 = some d := by decide
  exact hall d h

variable {base n : Nat}

theorem valueOf_append (text : Bytes) (ch : UInt8) :
    valueOf base (text ++ [ch]) = base * valueOf base text + (digitOf ch).getD 0 := by
  rw [valueOf, List.foldl_append]
  rfl

theorem toChars_of_lt (h : n < base) : toChars base n = [(Nat.digitChar n).toNat.toUInt8] := by
  rw [toChars, Nat.toDigits_of_lt_base h]
  rfl

theorem toChars_of_le (hbase : 1 < base) (h : base ≤ n) :
    toChars base n = toChars base (n / base) ++ [(Nat.digitChar (n % base)).toNat.toUInt8] := by
  rw [toChars, Nat.toDigits_of_base_le hbase h, List.map_append]
  rfl

theorem toChars_ne_nil (hbase : 1 < base) : toChars base n ≠ [] := by
  rcases Nat.lt_or_ge n base with h | h
  · rw [toChars_of_lt h]
    exact List.cons_ne_nil _ _
  · rw [toChars_of_le hbase h]
    exact List.append_ne_nil_of_right_ne_nil _ (List.cons_ne_nil _ _)

theorem valueOf_toChars (hbase : 1 < base) (hmax : base ≤ 16) : valueOf base (toChars base n) = n := by
  -- by the last digit
  induction n using Nat.strongRecOn with
  | ind n ih =>
      rcases Nat.lt_or_ge n base with h | h
      · rw [toChars_of_lt h]
        show base * 0 + (digitOf _).getD 0 = n
        rw [digitOf_digitChar (by omega), Option.getD_some, Nat.mul_zero, Nat.zero_add]
      · rw [toChars_of_le hbase h, valueOf_append, ih _ (Nat.div_lt_self (by omega) hbase),
          digitOf_digitChar (Nat.lt_of_lt_of_le (Nat.mod_lt _ (by omega)) hmax), Option.getD_some]
        exact Nat.div_add_mod n base

theorem toChars_digits (hbase : 1 < base) (hmax : base ≤ 16) : (toChars base n).all (isDigitOf base) = true := by
  induction n using Nat.strongRecOn with
  | ind n ih =>
      have hdigit {d : Nat} (h : d < base) : isDigitOf base (Nat.digitChar d).toNat.toUInt8 = true := by
        rw [isDigitOf, digitOf_digitChar (by omega), Option.any_some, decide_eq_true h]
      rcases Nat.lt_or_ge n base with h | h
      · rw [toChars_of_lt h, List.all_cons, hdigit h]
        rfl
      · rw [toChars_of_le hbase h, List.all_append, ih _ (Nat.div_lt_self (by omega) hbase), List.all_cons,
          hdigit (Nat.mod_lt _ (by omega))]
        rfl

theorem toNumeric_toChars {bits : Nat} (hbase : 1 < base) (hmax : base ≤ 16) (h : n < 2 ^ bits) :
    toNumeric bits base (toChars base n) = some n := by
  rw [toNumeric, valueOf_toChars hbase hmax, if_pos ⟨toChars_ne_nil hbase, toChars_digits hbase hmax, h⟩]

end Rad
