import Rad.Url.Lemmas.Address
import Rad.Url.Lemmas.HostInvariant

/-!
# The addresses of hosts

Which texts are IPv4 hosts and which address each of them is, what text an IPv6 address is written as, and what the
accessors of a URL make of its host.
-/

namespace Rad.Url

variable {n : Nat}

/-! ## Numbers -/

/-- The numbers of IPv4 hosts: in decimal digits, in octal digits behind a zero and in hexadecimal digits behind "0x". -/
inductive NumberText : Bytes → Nat → Prop
  | decimal {digits : Bytes} : digits ≠ [] → digits.all (isDigitOf 10) = true →
      (digits.head? = some 0x30 → digits.length = 1) → NumberText digits (valueOf 10 digits)
  | octal {digits : Bytes} : digits ≠ [] → digits.all (isDigitOf 8) = true → NumberText (0x30 :: digits) (valueOf 8 digits)
  | hexadecimal {x : UInt8} {digits : Bytes} : x = 0x78 ∨ x = 0x58 → digits.all (isDigitOf 16) = true →
      NumberText (0x30 :: x :: digits) (valueOf 16 digits)

theorem isValidForRadix_eq (c : UInt8) :
    isValidForRadix c 10 = isDigitOf 10 c ∧ isValidForRadix c 8 = isDigitOf 8 c ∧
      isValidForRadix c 16 = isDigitOf 16 c := by
  have hall : ∀ c : Fin 256, isValidForRadix (UInt8.ofNat c) 10 = isDigitOf 10 (UInt8.ofNat c) ∧
      isValidForRadix (UInt8.ofNat c) 8 = isDigitOf 8 (UInt8.ofNat c) ∧
      isValidForRadix (UInt8.ofNat c) 16 = isDigitOf 16 (UInt8.ofNat c) := by decide +kernel
  have h := hall ⟨c.toNat, c.toNat_lt⟩
  rwa [UInt8.ofNat_toNat] at h

theorem parseIpv4Number_digits {r : Nat} {digits : Bytes} (hr : r = 10 ∨ r = 8 ∨ r = 16) :
    (if digits = [] then some 0 else if !digits.all (isValidForRadix · r) then none
      else toNumeric 32 r digits) = some n ↔
      digits.all (isDigitOf r) = true ∧ valueOf r digits = n ∧ n < 2 ^ 32 := by
  have hvalid : digits.all (isValidForRadix · r) = digits.all (isDigitOf r) := by
    congr 1
    funext c
    rcases hr with rfl | rfl | rfl
    · exact (isValidForRadix_eq c).1
    · exact (isValidForRadix_eq c).2.1
    · exact (isValidForRadix_eq c).2.2
  by_cases hnil : digits = []
  · subst hnil
    constructor
    · rintro ⟨⟩
      exact ⟨rfl, rfl, by decide⟩
    · rintro ⟨-, rfl, -⟩
      rfl
  · rw [if_neg hnil, hvalid, toNumeric]
    cases digits.all (isDigitOf r) with
    | false => exact ⟨(by simp), (by simp)⟩
    | true =>
        simp only [Bool.not_true, Bool.false_eq_true, if_false, ne_eq, hnil, not_false_eq_true, true_and,
          Option.ite_none_right_eq_some, Option.some.injEq]
        constructor
        · rintro ⟨hlt, rfl⟩
          exact ⟨rfl, hlt⟩
        · rintro ⟨rfl, hlt⟩
          exact ⟨hlt, rfl⟩

theorem startsWithHexPrefix_iff {input : Bytes} :
    startsWithHexPrefix input = true ↔ ∃ x digits, (x = 0x78 ∨ x = 0x58) ∧ input = 0x30 :: x :: digits := by
  rw [startsWithHexPrefix, Bool.or_eq_true, List.isPrefixOf_iff_prefix, List.isPrefixOf_iff_prefix]
  constructor
  · rintro (⟨digits, rfl⟩ | ⟨digits, rfl⟩)
    · exact ⟨0x78, digits, .inl rfl, rfl⟩
    · exact ⟨0x58, digits, .inr rfl, rfl⟩
  · rintro ⟨x, digits, rfl | rfl, rfl⟩
    · exact .inl ⟨digits, rfl⟩
    · exact .inr ⟨digits, rfl⟩

/-- The parser of numbers takes those below 2^32. -/
theorem parseIpv4Number_iff {part : Bytes} : parseIpv4Number part = some n ↔ NumberText part n ∧ n < 2 ^ 32 := by
  rw [parseIpv4Number]
  by_cases hnil : part = []
  · subst hnil
    refine ⟨nofun, ?_⟩
    rintro ⟨h, -⟩
    cases h with
    | decimal hne => exact absurd rfl hne
  rw [if_neg hnil]
  by_cases hhex : startsWithHexPrefix part = true
  · obtain ⟨x, digits, hx, rfl⟩ := startsWithHexPrefix_iff.1 hhex
    simp only [if_pos hhex, List.drop_succ_cons, List.drop_zero]
    rw [parseIpv4Number_digits (.inr (.inr rfl))]
    have hx8 {base : Nat} (hbase : base ≤ 10) : isDigitOf base x = false := by
      rcases hx with rfl | rfl <;> rfl
    constructor
    · rintro ⟨hdigits, rfl, hlt⟩
      exact ⟨.hexadecimal hx hdigits, hlt⟩
    · rintro ⟨h, hlt⟩
      cases h with
      | decimal _ _ hlength => exact absurd (hlength rfl) (by simp)
      | octal _ hdigits => rw [List.all_cons, hx8 (by decide)] at hdigits; cases hdigits
      | hexadecimal _ hdigits => exact ⟨hdigits, rfl, hlt⟩
  by_cases hzero : part.length ≥ 2 ∧ part.head? = some 0x30
  · simp only [if_neg hhex, if_pos hzero]
    rw [parseIpv4Number_digits (.inr (.inl rfl))]
    obtain ⟨hlength, hhead⟩ := hzero
    cases part with
    | nil => cases hhead
    | cons b digits =>
        cases hhead
        rw [List.drop_succ_cons, List.drop_zero]
        have hne : digits ≠ [] := by
          rintro rfl
          exact absurd hlength (by decide)
        constructor
        · rintro ⟨hdigits, rfl, hlt⟩
          exact ⟨.octal hne hdigits, hlt⟩
        · rintro ⟨h, hlt⟩
          cases h with
          | decimal _ _ hone => rw [hone rfl] at hlength; exact absurd hlength (by decide)
          | octal _ hdigits => exact ⟨hdigits, rfl, hlt⟩
          | hexadecimal hx _ => exact absurd (startsWithHexPrefix_iff.2 ⟨_, _, hx, rfl⟩) hhex
  · simp only [if_neg hhex, if_neg hzero]
    rw [parseIpv4Number_digits (.inl rfl)]
    constructor
    · rintro ⟨hdigits, rfl, hlt⟩
      refine ⟨.decimal hnil hdigits fun hhead => ?_, hlt⟩
      have hpos := List.length_pos_iff.2 hnil
      have hle : ¬part.length ≥ 2 := fun hle => hzero ⟨hle, hhead⟩
      omega
    · rintro ⟨h, hlt⟩
      cases h with
      | decimal _ hdigits _ => exact ⟨hdigits, rfl, hlt⟩
      | octal hne _ =>
          have hpos := List.length_pos_iff.2 hne
          exact absurd ⟨by rw [List.length_cons]; omega, rfl⟩ hzero
      | hexadecimal hx _ => exact absurd (startsWithHexPrefix_iff.2 ⟨_, _, hx, rfl⟩) hhex

/-! ## IPv4 hosts -/

def withoutTrailingDot (input : Bytes) : Bytes := if input.getLast? = some 0x2e then input.dropLast else input

theorem ipv4Parts_eq (input : Bytes) : ipv4Parts input = (withoutTrailingDot input).splitOn 0x2e := by
  rw [ipv4Parts, withoutTrailingDot]
  rcases List.eq_nil_or_concat' input with rfl | ⟨front, ch, rfl⟩
  · rfl
  rw [List.getLast?_concat]
  by_cases hdot : ch = 0x2e
  · subst hdot
    have hsplit : (front ++ [0x2e]).splitOn 0x2e = front.splitOn 0x2e ++ [[]] := List.splitOn_append_cons_self front []
    have hpos := List.length_pos_iff.2 (List.splitOn_ne_nil 0x2e front)
    rw [hsplit, if_pos rfl, List.dropLast_concat]
    simp only [List.getLast?_concat, List.dropLast_concat, List.length_append, List.length_singleton, true_and]
    exact if_pos (by omega)
  · rw [if_neg fun h => hdot (Option.some.inj h)]
    refine if_neg ?_
    rintro ⟨hlast, hlength⟩
    obtain ⟨parts, hparts⟩ := List.getLast?_eq_some_iff.1 hlast
    have hne : parts ≠ [] := by
      rintro rfl
      rw [hparts] at hlength
      exact absurd hlength (by decide)
    have htext : List.intercalate [0x2e] ((front ++ [ch]).splitOn 0x2e) = front ++ [ch] := List.intercalate_splitOn 0x2e
    rw [hparts, Lib.intercalate_concat hne, List.append_nil] at htext
    exact hdot (List.append_singleton_inj.1 htext).2.symm

theorem ipv4Numbers_eq_ok {parts : List Bytes} {numbers : List Nat} :
    ipv4Numbers parts = .ok numbers ↔ List.Forall₂ (fun part n => parseIpv4Number part = some n) parts numbers := by
  induction parts generalizing numbers with
  | nil =>
      rw [List.forall₂_nil_left_iff]
      constructor
      · rintro ⟨⟩
        rfl
      · rintro rfl
        rfl
  | cons part parts ih =>
      rw [ipv4Numbers, List.forall₂_cons_left_iff]
      cases hpart : parseIpv4Number part with
      | none =>
          refine ⟨(by simp), ?_⟩
          rintro ⟨n, more, h, -⟩
          cases h
      | some n =>
          cases hrest : ipv4Numbers parts with
          | error e =>
              refine ⟨(fun h => by cases h), ?_⟩
              rintro ⟨m, more, -, hmore, -⟩
              rw [ih.2 hmore] at hrest
              cases hrest
          | ok more =>
              constructor
              · rintro ⟨⟩
                exact ⟨n, more, rfl, ih.1 hrest, rfl⟩
              · rintro ⟨m, more', hm, hmore, rfl⟩
                cases hm
                cases hrest.symm.trans (ih.2 hmore)
                rfl

/-- The numbers at the places from the given one on. -/
def placesValue (place : Nat) (front : List Nat) : Nat := ((front.zipIdx place).map fun (n, i) => n * 256 ^ (3 - i)).sum

def ipv4Value (front : List Nat) (last : Nat) : Nat := last + placesValue 0 front

theorem placesValue_cons (place n : Nat) (front : List Nat) :
    placesValue place (n :: front) = n * 256 ^ (3 - place) + placesValue (place + 1) front := by
  rw [placesValue, List.zipIdx_cons, List.map_cons, List.sum_cons, placesValue]

theorem placesValue_lt {front : List Nat} {place : Nat} (hsmall : ∀ n ∈ front, n ≤ 255)
    (hplace : place + front.length ≤ 4) :
    placesValue place front + 256 ^ (4 - (place + front.length)) ≤ 256 ^ (4 - place) := by
  induction front generalizing place with
  | nil => exact Nat.le_of_eq (Nat.zero_add _)
  | cons n front ih =>
      obtain ⟨hn, hsmall⟩ := List.forall_mem_cons.1 hsmall
      rw [List.length_cons] at hplace ⊢
      have hrest : placesValue (place + 1) front + 256 ^ (4 - (place + 1 + front.length)) ≤ 256 ^ (4 - (place + 1)) :=
        ih hsmall (by omega)
      have hpower : 256 ^ (4 - place) = 256 * 256 ^ (3 - place) := by
        rw [show 4 - place = 3 - place + 1 by omega, Nat.pow_succ, Nat.mul_comm]
      have hproduct : n * 256 ^ (3 - place) ≤ 255 * 256 ^ (3 - place) := Nat.mul_le_mul_right _ hn
      rw [show 4 - (place + 1) = 3 - place by omega, show place + 1 + front.length = place + (front.length + 1) by omega]
        at hrest
      rw [placesValue_cons, hpower]
      omega

/-- The sum in 32 bits is that of the numbers. -/
theorem addIpv4Numbers_toNat {front : List Nat} {place : Nat} {number : UInt32}
    (h : number.toNat + placesValue place front < 2 ^ 32) (hsmall : ∀ n ∈ front, n ≤ 255) :
    (addIpv4Numbers number place front).toNat = number.toNat + placesValue place front := by
  induction front generalizing number place with
  | nil => rfl
  | cons n front ih =>
      obtain ⟨hn, hsmall⟩ := List.forall_mem_cons.1 hsmall
      rw [placesValue_cons] at h ⊢
      have hpower : 256 ^ (3 - place) ≤ 256 ^ 3 := Nat.pow_le_pow_right (by decide) (Nat.sub_le _ _)
      have hadd : (number + UInt32.ofNat n * UInt32.ofNat (256 ^ (3 - place))).toNat =
          number.toNat + n * 256 ^ (3 - place) := by
        rw [UInt32.toNat_add, UInt32.toNat_mul, UInt32.toNat_ofNat', UInt32.toNat_ofNat',
          Nat.mod_eq_of_lt (a := n) (by omega), Nat.mod_eq_of_lt (a := 256 ^ _) (by omega),
          Nat.mod_eq_of_lt (a := n * _) (by omega), Nat.mod_eq_of_lt (by omega)]
      rw [addIpv4Numbers, ih (by rw [hadd]; omega) hsmall, hadd]
      omega

/-- One to four numbers with dots between them, and one more dot at the end or none. -/
structure Ipv4Text (input : Bytes) (front : List Nat) (last : Nat) : Prop where
  parts : List.Forall₂ NumberText ((withoutTrailingDot input).splitOn 0x2e) (front ++ [last])
  four : front.length < 4
  small : ∀ n ∈ front, n ≤ 255
  fits : last < 256 ^ (5 - (front.length + 1))

namespace Ipv4Text

variable {input : Bytes} {front : List Nat} {last : Nat}

theorem last_lt (h : Ipv4Text input front last) : last < 2 ^ 32 :=
  Nat.lt_of_lt_of_le h.fits (Nat.pow_le_pow_right (j := 4) (by decide) (by omega))

theorem value_lt (h : Ipv4Text input front last) : ipv4Value front last < 2 ^ 32 := by
  have hfour := h.four
  have hfits := h.fits
  have hsum : placesValue 0 front + 256 ^ (4 - (0 + front.length)) ≤ 256 ^ (4 - 0) := placesValue_lt h.small (by omega)
  rw [show 5 - (front.length + 1) = 4 - (0 + front.length) by omega] at hfits
  rw [ipv4Value]
  omega

theorem toNat_add (h : Ipv4Text input front last) :
    (addIpv4Numbers (UInt32.ofNat last) 0 front).toNat = ipv4Value front last := by
  have hlast : (UInt32.ofNat last).toNat = last := by
    rw [UInt32.toNat_ofNat', Nat.mod_eq_of_lt h.last_lt]
  have hvalue := h.value_lt
  rw [ipv4Value] at hvalue ⊢
  rw [addIpv4Numbers_toNat (by rwa [hlast]) h.small, hlast]

/-- The numbers that the parser reads. -/
theorem numbers (h : Ipv4Text input front last) : ipv4Numbers (ipv4Parts input) = .ok (front ++ [last]) := by
  rw [ipv4Parts_eq, ipv4Numbers_eq_ok]
  have hbound : ∀ n ∈ front ++ [last], n < 2 ^ 32 := by
    intro n hn
    rcases List.mem_append.1 hn with hn | hn
    · exact Nat.lt_of_le_of_lt (h.small n hn) (by decide)
    · rw [List.mem_singleton.1 hn]
      exact h.last_lt
  exact ((List.forall₂_and_left _ _).2 ⟨hbound, h.parts.flip⟩).flip.imp fun part n h => parseIpv4Number_iff.2 ⟨h.2, h.1⟩

theorem parse (h : Ipv4Text input front last) :
    parseUrlIpv4Host input = .ok (addIpv4Numbers (UInt32.ofNat last) 0 front) := by
  have hlength : (ipv4Parts input).length = front.length + 1 := by
    rw [ipv4Parts_eq, h.parts.length_eq, List.length_append, List.length_singleton]
  have hfour := h.four
  have hsmall : ¬((front ++ [last]).dropLast.any (· > 255)) = true := by
    rw [List.dropLast_concat, List.any_eq_true]
    rintro ⟨n, hn, hgreater⟩
    exact absurd (h.small n hn) (Nat.not_le.2 (of_decide_eq_true hgreater))
  have hfits := h.fits
  rw [parseUrlIpv4Host]
  simp only [hlength, h.numbers, Except.bind, List.getLast?_concat, Option.getD_some, List.length_append,
    List.length_singleton]
  rw [if_neg (by omega), if_neg hsmall, if_neg (by omega), List.dropLast_concat]

end Ipv4Text

theorem parseUrlIpv4Host_ok {input : Bytes} {address : Ipv4} (h : parseUrlIpv4Host input = .ok address) :
    ∃ front last, Ipv4Text input front last := by
  rw [parseUrlIpv4Host] at h
  simp only at h
  split at h
  · cases h
  rename_i hfour
  cases hnumbers : ipv4Numbers (ipv4Parts input) with
  | error e =>
      rw [hnumbers] at h
      cases h
  | ok numbers =>
      rw [hnumbers] at h
      have hparts := ipv4Numbers_eq_ok.1 hnumbers
      rw [ipv4Parts_eq] at hparts hfour
      rw [hparts.length_eq] at hfour
      rcases List.eq_nil_or_concat' numbers with rfl | ⟨front, last, rfl⟩
      · exact absurd (List.forall₂_nil_right_iff.1 hparts) (List.splitOn_ne_nil _ _)
      simp only [Except.bind, List.dropLast_concat, List.getLast?_concat, Option.getD_some, List.length_append,
        List.length_singleton] at h hfour
      split at h
      · cases h
      rename_i hsmall
      split at h
      · cases h
      rename_i hfits
      refine ⟨front, last, hparts.imp fun part n hpart => (parseIpv4Number_iff.1 hpart).1, by omega, fun n hn => ?_,
        by omega⟩
      by_contra hgreater
      exact hsmall (List.any_eq_true.2 ⟨n, hn, decide_eq_true (Nat.not_le.1 hgreater)⟩)

/-- A host that is an address ends in a number. -/
theorem endsInNumber_of_ok {input : Bytes} {address : Ipv4} (h : parseUrlIpv4Host input = .ok address) :
    urlDomainEndsInNumber input = true := by
  obtain ⟨front, last, htext⟩ := parseUrlIpv4Host_ok h
  have hparts := ipv4Numbers_eq_ok.1 htext.numbers
  rcases List.eq_nil_or_concat' (ipv4Parts input) with hnil | ⟨parts, part, hcons⟩
  · rw [hnil, List.forall₂_nil_left_iff] at hparts
    exact absurd hparts (List.append_ne_nil_of_right_ne_nil _ (List.cons_ne_nil _ _))
  rw [hcons, ← List.forall₂_reverse_iff, List.reverse_concat, List.reverse_concat, List.forall₂_cons] at hparts
  rw [urlDomainEndsInNumber, hcons, List.getLast?_concat]
  simp only [hparts.1, Option.isSome_some, Bool.or_true]
  refine if_neg ?_
  rintro ⟨hlast, hlength⟩
  -- the only part would be empty
  have hinput : ipv4Parts input = input.splitOn 0x2e := by
    rw [ipv4Parts]
    exact if_neg fun h => by omega
  rw [← hinput, hcons, List.getLast?_concat] at hlast
  cases hlast
  cases hparts.1

/-- The accepted texts are those of one to four numbers, the address is their number without a wrap-around, and each text
that is accepted is recognised. -/
theorem parseUrlIpv4Host_accepts (input : Bytes) :
    (∀ address, parseUrlIpv4Host input = .ok address →
      (∃ front last, Ipv4Text input front last ∧ address.toNat = ipv4Value front last) ∧
        urlDomainEndsInNumber input = true) ∧
      ∀ front last, Ipv4Text input front last →
        ∃ address, parseUrlIpv4Host input = .ok address ∧ address.toNat = ipv4Value front last := by
  constructor
  · intro address h
    obtain ⟨front, last, htext⟩ := parseUrlIpv4Host_ok h
    cases h.symm.trans htext.parse
    exact ⟨⟨front, last, htext, htext.toNat_add⟩, endsInNumber_of_ok h⟩
  · exact fun front last htext => ⟨_, htext.parse, htext.toNat_add⟩

/-! ## Runs of zeros -/

structure ZeroRun (words : List UInt16) (start size : Nat) : Prop where
  inside : start + size ≤ words.length
  zero : ∀ i, start ≤ i → i < start + size → words[i]? = some 0

/-- The first one of the longest runs. -/
structure FirstLongestRun (words : List UInt16) (start size : Nat) : Prop where
  run : ZeroRun words start size
  longest : ∀ start' size', ZeroRun words start' size' → size' ≤ size
  first : ∀ start', ZeroRun words start' size → start ≤ start'

variable {words front : List UInt16} {word : UInt16} {start size : Nat}

theorem ZeroRun.append (h : ZeroRun front start size) (word : UInt16) : ZeroRun (front ++ [word]) start size := by
  have hinside := h.inside
  refine ⟨by rw [List.length_append]; omega, fun i hstart hend => ?_⟩
  rw [List.getElem?_append_left (by omega)]
  exact h.zero i hstart hend

theorem ZeroRun.of_append (h : ZeroRun (front ++ [word]) start size) (hinside : start + size ≤ front.length) :
    ZeroRun front start size := by
  refine ⟨hinside, fun i hstart hend => ?_⟩
  have hzero := h.zero i hstart hend
  rwa [List.getElem?_append_left (by omega)] at hzero

theorem ZeroRun.inside_of_ne (h : ZeroRun (front ++ [word]) start size) (hword : word ≠ 0) (hsize : size ≠ 0) :
    start + size ≤ front.length := by
  have hinside := h.inside
  rw [List.length_append, List.length_singleton] at hinside
  by_contra hend
  have hzero := h.zero front.length (by omega) (by omega)
  rw [List.getElem?_append_right (Nat.le_refl _), Nat.sub_self] at hzero
  exact hword (Option.some.inj hzero)

theorem ZeroRun.snoc (h : ZeroRun front (front.length - size) size) (hsize : size ≤ front.length) :
    ZeroRun (front ++ [0]) (front.length - size) (size + 1) := by
  refine ⟨by rw [List.length_append, List.length_singleton]; omega, fun i hstart hend => ?_⟩
  rcases Nat.lt_or_ge i front.length with hi | hi
  · rw [List.getElem?_append_left hi]
    exact h.zero i hstart (by omega)
  · rw [List.getElem?_append_right hi, show i - front.length = 0 by omega]
    rfl

/-- The loop behind the words `front`: they end with the run that is found, and the longest one is the first of the longest
runs in front of that. -/
structure CompressedPiece.Finds (s : CompressedPiece) (front : List UInt16) : Prop where
  size : s.foundSize ≤ front.length
  run : ZeroRun front (front.length - s.foundSize) s.foundSize
  whole : ∀ i, i + 1 = front.length - s.foundSize → front[i]? ≠ some 0
  found : s.foundIndex = if s.foundSize = 0 then none else some (front.length - s.foundSize)
  noLongest : s.longestIndex = none → s.longestSize = 1
  longest : ∀ i, s.longestIndex = some i →
    2 ≤ s.longestSize ∧ ZeroRun front i s.longestSize ∧ i + s.longestSize ≤ front.length - s.foundSize
  others : ∀ start size, ZeroRun front start size → start + size ≤ front.length - s.foundSize →
    size ≤ s.longestSize ∧ ∀ i, s.longestIndex = some i → size = s.longestSize → i ≤ start

namespace CompressedPiece.Finds

variable {s : CompressedPiece}

theorem longestSize_pos (h : s.Finds front) : 1 ≤ s.longestSize := by
  cases hlongest : s.longestIndex with
  | none => rw [h.noLongest hlongest]
  | some i => exact Nat.le_of_succ_le (h.longest i hlongest).1

/-- A run is in front of the one that is found, or a part of it. -/
theorem run_cases (h : s.Finds front) (hrun : ZeroRun front start size) :
    start + size ≤ front.length - s.foundSize ∨ front.length - s.foundSize ≤ start ∧ size ≤ s.foundSize := by
  have hinside := hrun.inside
  have hsize := h.size
  by_contra hcross
  exact h.whole (front.length - s.foundSize - 1) (by omega) (hrun.zero _ (by omega) (by omega))

/-- No run is found at the end. -/
theorem of_end {index : Option Nat} {size : Nat} (hend : ∀ i, i + 1 = front.length → front[i]? ≠ some 0)
    (hnone : index = none → size = 1) (hlongest : ∀ i, index = some i → 2 ≤ size ∧ ZeroRun front i size)
    (hothers : ∀ start size', ZeroRun front start size' →
      size' ≤ size ∧ ∀ i, index = some i → size' = size → i ≤ start) :
    CompressedPiece.Finds { longestIndex := index, longestSize := size } front where
  size := Nat.zero_le _
  run := ⟨Nat.le_refl _, fun _ hi hlt => absurd hi (Nat.not_le.2 hlt)⟩
  whole := hend
  found := rfl
  noLongest := hnone
  longest := fun i hi => ⟨(hlongest i hi).1, (hlongest i hi).2, (hlongest i hi).2.inside⟩
  others := fun start size' hrun _ => hothers start size' hrun

theorem next_zero (h : s.Finds front) : (s.next front.length 0).Finds (front ++ [0]) := by
  have hsize := h.size
  have hnext : s.next front.length 0 =
      { s with foundIndex := s.foundIndex.or (some front.length), foundSize := s.foundSize + 1 } := if_neg fun h => h rfl
  have hlength : (front ++ [0]).length = front.length + 1 := List.length_append
  have hstart : front.length + 1 - (s.foundSize + 1) = front.length - s.foundSize := Nat.add_sub_add_right _ _ _
  rw [hnext]
  refine ⟨?_, ?_, ?_, ?_, h.noLongest, fun i hi => ?_, fun start size hrun hend => ?_⟩
  · rw [hlength]
    exact Nat.succ_le_succ hsize
  · rw [hlength, hstart]
    exact h.run.snoc hsize
  · intro i hi
    rw [hlength, hstart] at hi
    rw [List.getElem?_append_left (by omega)]
    exact h.whole i hi
  · rw [hlength, hstart, if_neg (Nat.succ_ne_zero _), h.found]
    split
    · rename_i hzero
      rw [hzero, Nat.sub_zero]
      rfl
    · rfl
  · obtain ⟨htwo, hrun, hend⟩ := h.longest i hi
    exact ⟨htwo, hrun.append 0, by rwa [hlength, hstart]⟩
  · rw [hlength, hstart] at hend
    exact h.others start size (hrun.of_append (by omega)) hend

theorem next_other (h : s.Finds front) (hword : word ≠ 0) : (s.next front.length word).Finds (front ++ [word]) := by
  have hsize := h.size
  have hpos := h.longestSize_pos
  have hlength : (front ++ [word]).length = front.length + 1 := List.length_append
  have hrun {start size : Nat} (hrun : ZeroRun (front ++ [word]) start size) (hne : size ≠ 0) :
      ZeroRun front start size := hrun.of_append (hrun.inside_of_ne hword hne)
  have hlast : ∀ i, i + 1 = (front ++ [word]).length → (front ++ [word])[i]? ≠ some 0 := by
    intro i hi
    rw [hlength] at hi
    rw [Nat.succ.inj hi, List.getElem?_append_right (Nat.le_refl _), Nat.sub_self]
    exact fun h => hword (Option.some.inj h)
  by_cases hlonger : s.foundSize > s.longestSize
  · have hnext : s.next front.length word = { longestIndex := s.foundIndex, longestSize := s.foundSize } := by
      rw [next, if_pos hword]
      simp only [if_pos hlonger]
    have hfound : s.foundIndex = some (front.length - s.foundSize) := by
      rw [h.found, if_neg (by omega)]
    rw [hnext, hfound]
    refine of_end hlast (by simp) (fun i hi => ?_) fun start size hzero => ?_
    · cases hi
      exact ⟨by omega, h.run.append word⟩
    · by_cases hne : size = 0
      · exact ⟨by omega, fun i _ hsame => by omega⟩
      rcases h.run_cases (hrun hzero hne) with hfront | ⟨hbegin, hpart⟩
      · have hless := (h.others start size (hrun hzero hne) hfront).1
        exact ⟨by omega, fun i _ hsame => by omega⟩
      · refine ⟨hpart, fun i hi _ => ?_⟩
        cases hi
        exact hbegin
  · have hnext : s.next front.length word = { longestIndex := s.longestIndex, longestSize := s.longestSize } := by
      rw [next, if_pos hword]
      simp only [if_neg hlonger]
    rw [hnext]
    refine of_end hlast h.noLongest (fun i hi => ?_) fun start size hzero => ?_
    · obtain ⟨htwo, hrun, -⟩ := h.longest i hi
      exact ⟨htwo, hrun.append word⟩
    · by_cases hne : size = 0
      · exact ⟨by omega, fun i _ hsame => by omega⟩
      rcases h.run_cases (hrun hzero hne) with hfront | ⟨hbegin, hpart⟩
      · exact h.others start size (hrun hzero hne) hfront
      · refine ⟨by omega, fun i hi hsame => ?_⟩
        have hend := (h.longest i hi).2.2
        omega

theorem foldl (h : s.Finds front) (pieces : List UInt16) :
    ((pieces.zipIdx front.length).foldl (fun s (piece, i) => s.next i piece) s).Finds (front ++ pieces) := by
  induction pieces generalizing s front with
  | nil => rwa [List.append_nil]
  | cons piece pieces ih =>
      have hnext : (s.next front.length piece).Finds (front ++ [piece]) := by
        by_cases hzero : piece = 0
        · rw [hzero]
          exact h.next_zero
        · exact h.next_other hzero
      have hrest := ih hnext
      rwa [List.length_append, List.length_singleton, List.append_assoc, List.singleton_append] at hrest

end CompressedPiece.Finds

theorem find_finds (address : Ipv6) :
    ∃ s : CompressedPiece, s.Finds address.words ∧
      findIpv6CompressedPieceIndex address = if s.foundSize > s.longestSize then s.foundIndex else s.longestIndex := by
  have hbegin : CompressedPiece.Finds {} [] := by
    refine .of_end nofun (fun _ => rfl) nofun fun start size hrun => ?_
    have hinside := hrun.inside
    rw [List.length_nil] at hinside
    exact ⟨by omega, nofun⟩
  have hfinds := hbegin.foldl address.words
  exact ⟨_, hfinds, rfl⟩

/-- The piece that is found begins the first one of the longest runs. -/
theorem find_eq_some {address : Ipv6} (h : findIpv6CompressedPieceIndex address = some start) :
    ∃ size, 2 ≤ size ∧ FirstLongestRun address.words start size := by
  obtain ⟨s, hfinds, hfind⟩ := find_finds address
  have hsize := hfinds.size
  rw [hfind] at h
  split at h
  · rename_i hlonger
    have hpos := hfinds.longestSize_pos
    rw [hfinds.found, if_neg (by omega)] at h
    cases h
    refine ⟨s.foundSize, by omega, hfinds.run, fun start' size' hrun => ?_, fun start' hrun => ?_⟩
    · rcases hfinds.run_cases hrun with hfront | ⟨-, hpart⟩
      · have hless := (hfinds.others start' size' hrun hfront).1
        omega
      · exact hpart
    · rcases hfinds.run_cases hrun with hfront | ⟨hbegin, -⟩
      · have hless := (hfinds.others start' _ hrun hfront).1
        omega
      · exact hbegin
  · rename_i hshorter
    obtain ⟨htwo, hrun, hend⟩ := hfinds.longest start h
    refine ⟨s.longestSize, htwo, hrun, fun start' size' hrun => ?_, fun start' hrun => ?_⟩
    · rcases hfinds.run_cases hrun with hfront | ⟨-, hpart⟩
      · exact (hfinds.others start' size' hrun hfront).1
      · omega
    · rcases hfinds.run_cases hrun with hfront | ⟨hbegin, -⟩
      · exact (hfinds.others start' _ hrun hfront).2 start h rfl
      · omega

/-- Without a piece that is found there are single zeros only. -/
theorem find_eq_none {address : Ipv6} (h : findIpv6CompressedPieceIndex address = none)
    (hrun : ZeroRun address.words start size) : size ≤ 1 := by
  obtain ⟨s, hfinds, hfind⟩ := find_finds address
  rw [hfind] at h
  split at h
  · rename_i hlonger
    rw [hfinds.found, if_neg (by omega)] at h
    cases h
  · rename_i hshorter
    have hone := hfinds.noLongest h
    rcases hfinds.run_cases hrun with hfront | ⟨-, hpart⟩
    · rw [← hone]
      exact (hfinds.others start size hrun hfront).1
    · omega

/-! ## The texts of IPv6 addresses -/

def isLowerHexDigit (b : UInt8) : Bool := (0x30 ≤ b && b ≤ 0x39) || (0x61 ≤ b && b ≤ 0x66)

/-- A group: the word in small hexadecimal digits without zeros in front. -/
structure GroupOf (word : UInt16) (text : Bytes) : Prop where
  nonempty : text ≠ []
  digits : ∀ b ∈ text, isLowerHexDigit b = true
  value : valueOf 16 text = word.toNat
  noLeadingZero : text.head? = some 0x30 → text = [0x30]

theorem isLowerHexDigit_digitChar {d : Nat} (h : d < 16) : isLowerHexDigit (Nat.digitChar d).toNat.toUInt8 = true := by
  have hall : ∀ d < 16, isLowerHexDigit (Nat.digitChar d).toNat.toUInt8 = true := by decide
  exact hall d h

theorem lower_toChars (n : Nat) : ∀ b ∈ toChars 16 n, isLowerHexDigit b = true := by
  induction n using Nat.strongRecOn with
  | ind n ih =>
      rcases Nat.lt_or_ge n 16 with h | h
      · rw [toChars_of_lt h]
        exact List.forall_mem_singleton.2 (isLowerHexDigit_digitChar h)
      · rw [toChars_of_le (by decide) h]
        intro b hb
        rcases List.mem_append.1 hb with hb | hb
        · exact ih _ (Nat.div_lt_self (by omega) (by decide)) b hb
        · rw [List.mem_singleton.1 hb]
          exact isLowerHexDigit_digitChar (Nat.mod_lt _ (by decide))

/-- A zero stands first in the text of zero only. -/
theorem eq_zero_of_head {n : Nat} (h : (toChars 16 n).head? = some 0x30) : n = 0 := by
  induction n using Nat.strongRecOn with
  | ind n ih =>
      rcases Nat.lt_or_ge n 16 with hlt | hge
      · rw [toChars_of_lt hlt, List.head?_cons, Option.some.injEq] at h
        have hall : ∀ n < 16, (Nat.digitChar n).toNat.toUInt8 = 0x30 → n = 0 := by decide
        exact hall n hlt h
      · rw [toChars_of_le (by decide) hge, List.head?_append_of_ne_nil _ (toChars_ne_nil (by decide))] at h
        have hzero := ih _ (Nat.div_lt_self (by omega) (by decide)) h
        omega

theorem groupOf_groupText (word : UInt16) : GroupOf word (groupText word) where
  nonempty := toChars_ne_nil (by decide)
  digits := lower_toChars _
  value := valueOf_toChars (by decide) (by decide)
  noLeadingZero h := by
    rw [groupText] at h ⊢
    rw [eq_zero_of_head h]
    rfl

theorem not_infix_of_cut {text : Bytes} (h : cutAtColons text = none) : ¬[0x3a, 0x3a] <:+: text := by
  rintro ⟨front, behind, rfl⟩
  induction front with
  | nil => cases h
  | cons ch front ih =>
      rw [List.cons_append, List.cons_append, cutAtColons] at h
      split at h
      · cases h
      · exact ih (Option.map_eq_none_iff.1 h)

theorem cutAtColons_groupsText_eq_none (words : List UInt16) : cutAtColons (groupsText words) = none := by
  have h := cutAtColons_groupsText words []
  rwa [List.append_nil] at h

/-- The run that is left out is all of the zeros around its beginning. -/
theorem firstLongestRun_replicate {behind : List UInt16} {zeros : Nat}
    (hwords : words = front ++ 0 :: (List.replicate zeros 0 ++ behind)) (hbehind : behind.head? ≠ some 0)
    (h : FirstLongestRun words front.length size) : size = zeros + 1 := by
  have hlength : words.length = front.length + (zeros + 1 + behind.length) := by
    rw [hwords, List.length_append, List.length_cons, List.length_append, List.length_replicate]
    omega
  have hget (i : Nat) : words[front.length + i]? = (List.replicate (zeros + 1) 0 ++ behind)[i]? := by
    rw [hwords, List.getElem?_append_right (Nat.le_add_right _ _), Nat.add_sub_cancel_left]
    rfl
  have hrun : ZeroRun words front.length (zeros + 1) := by
    refine ⟨by omega, fun i hi hi' => ?_⟩
    obtain ⟨j, rfl⟩ := Nat.exists_eq_add_of_le hi
    rw [hget, List.getElem?_append_left (by rw [List.length_replicate]; omega), List.getElem?_replicate, if_pos (by omega)]
  have hle := h.longest _ _ hrun
  by_contra hne
  have hzero := h.run.zero (front.length + (zeros + 1)) (by omega) (by omega)
  rw [hget, List.getElem?_append_right (by rw [List.length_replicate]), List.length_replicate, Nat.sub_self,
    ← List.head?_eq_getElem?] at hzero
  exact hbehind hzero

/-- An address is written as its groups, with two colons for the first one of its longest runs of two zeros or more, and
is read back from that. -/
theorem urlSerializeIpv6_canonical (address : Ipv6) :
    (((∀ start size, ZeroRun address.words start size → size ≤ 1) ∧
          urlSerializeIpv6 address = [0x5b] ++ groupsText address.words ++ [0x5d] ∧
          ¬[0x3a, 0x3a] <:+: groupsText address.words) ∨
        ∃ front size behind, 2 ≤ size ∧ address.words = front ++ List.replicate size 0 ++ behind ∧
          FirstLongestRun address.words front.length size ∧
          urlSerializeIpv6 address = [0x5b] ++ (groupsText front ++ [0x3a, 0x3a] ++ groupsText behind) ++ [0x5d]) ∧
      (∀ word, GroupOf word (groupText word)) ∧
      (∃ text, urlSerializeIpv6 address = [0x5b] ++ text ++ [0x5d] ∧ Ipv6.ofText text = some address) ∧
      ∀ address', urlSerializeIpv6 address' = urlSerializeIpv6 address → address' = address := by
  obtain ⟨text, htext, -, hread⟩ := urlSerializeIpv6_text address
  refine ⟨?_, groupOf_groupText, ⟨text, htext, hread⟩, fun address' hsame => ?_⟩
  · rcases urlSerializeIpv6_cases address with ⟨hnone, h⟩ | ⟨front, zeros, behind, hwords, hbehind, hsome, h⟩
    · exact .inl ⟨fun start size => find_eq_none hnone, h, not_infix_of_cut (cutAtColons_groupsText_eq_none _)⟩
    · obtain ⟨size, htwo, hrun⟩ := find_eq_some hsome
      obtain rfl := firstLongestRun_replicate hwords hbehind hrun
      refine .inr ⟨front, zeros + 1, behind, htwo, ?_, hrun, ?_⟩
      · rw [hwords, List.replicate_succ, List.append_assoc, List.cons_append]
      · rw [h]
        simp only [List.append_assoc, List.cons_append, List.nil_append]
  · obtain ⟨text', htext', -, hread'⟩ := urlSerializeIpv6_text address'
    rw [htext, htext'] at hsame
    rw [(List.append_singleton_inj.1 (List.cons.inj hsame).2).1, hread] at hread'
    exact (Option.some.inj hread').symm

/-! ## The accessors -/

/-- What the accessors of a URL are for: they give the address that the host is the text of. -/
structure AccessorsReturn (url : UrlRecord) : Prop where
  ipv4 : url.isHostIpv4 = true → ∃ address : Ipv4, url.host = address.toText ∧ url.hostIpv4 = some address ∧
    url.makeEndpoint = some ⟨.ipv4 address, url.portNumber⟩
  ipv6 : url.isHostIpv6 = true → ∃ address, url.host = urlSerializeIpv6 address ∧ url.hostIpv6 = some address ∧
    url.makeEndpoint = some ⟨.ipv6 address, url.portNumber⟩

/-- They do it for IPv4 addresses, and for no IPv6 address: the host is read with its brackets. -/
theorem accessors_return {url : UrlRecord} (h : Parsed url) : AccessorsReturn url ↔ url.isHostIpv6 = false := by
  constructor
  · intro hreturn
    by_contra hipv6
    rw [Bool.not_eq_false] at hipv6
    obtain ⟨address, hhost, haddress, -⟩ := hreturn.ipv6 hipv6
    rw [UrlRecord.hostIpv6, hhost, ofText_serialized] at haddress
    cases haddress
  · intro hipv6
    refine ⟨fun hipv4 => ?_, fun h => Bool.noConfusion (hipv6.symm.trans h)⟩
    obtain ⟨address, hhost⟩ := h.fair.address.ipv4 hipv4
    have hread : url.hostIpv4 = some address := by
      rw [UrlRecord.hostIpv4, show url.host = address.toText from hhost, ofText_toText]
    refine ⟨address, hhost, hread, ?_⟩
    rw [UrlRecord.makeEndpoint, if_pos hipv4, hread]
    rfl

theorem accessors_return_ipv4 :
    ∃ url, Parses none (ascii "http://0x7f.1:8080/") (.ok url) ∧ url.host = ascii "127.0.0.1" ∧ url.portNumber = 8080 ∧
      AccessorsReturn url := by
  have hrun : (Lib.runLoop (pass none) 40 (.initial (ascii "http://0x7f.1:8080/"))).map
      (fun r => r.toOption.map fun url => (url.host, url.portNumber, url.isHostIpv6)) =
      some (some (ascii "127.0.0.1", 8080, false)) := by decide +kernel
  obtain ⟨r, hr, hurl⟩ := Lib.returns_of_map_runLoop hrun
  cases r with
  | error e => cases hurl
  | ok url =>
      simp only [Except.toOption, Option.map_some, Option.some.injEq, Prod.mk.injEq] at hurl
      exact ⟨url, hr, hurl.1, hurl.2.1, (accessors_return (.absolute hr)).2 hurl.2.2⟩

/-- The address of the local host. -/
theorem accessors_fail : ¬∀ url : UrlRecord, Parsed url → AccessorsReturn url := by
  intro hall
  have hrun : (Lib.runLoop (pass none) 40 (.initial (ascii "http://[::1]/"))).map
      (fun r => r.toOption.map fun url => (url.isHostIpv6, url.hostIpv6.isNone)) = some (some (true, true)) := by
    decide +kernel
  obtain ⟨r, hr, hurl⟩ := Lib.returns_of_map_runLoop hrun
  cases r with
  | error e => cases hurl
  | ok url =>
      simp only [Except.toOption, Option.map_some, Option.some.injEq, Prod.mk.injEq] at hurl
      obtain ⟨address, -, haddress, -⟩ := (hall url (.absolute hr)).ipv6 hurl.1
      rw [haddress] at hurl
      cases hurl.2

end Rad.Url
