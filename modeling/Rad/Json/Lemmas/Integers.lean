import Rad.Json.Lemmas.Tokens

/-!
# Reading integers

A decimal number is read digit by digit, and a delimiter behind it ends it.
-/

namespace Rad.Json

variable {toDouble : Bool → Bytes → Except ErrorCode UInt64}

/-! ## Decimal numbers -/

theorem fromDigits_append (ds : Bytes) (d : UInt8) : fromDigits (ds ++ [d]) = fromDigits ds * 10 + (d.toNat - 0x30) := by
  simp [fromDigits]

theorem foldl_digits (ds : Bytes) (n : Nat) :
    ds.foldl (fun n d => n * 10 + (d.toNat - 0x30)) n = n * 10 ^ ds.length + fromDigits ds := by
  induction ds generalizing n with
  | nil => simp [fromDigits]
  | cons d ds ih =>
      have hd : fromDigits (d :: ds) = (0 * 10 + (d.toNat - 0x30)) * 10 ^ ds.length + fromDigits ds := ih _
      rw [List.foldl_cons, ih, hd, List.length_cons, Nat.pow_succ]
      ring

/-- A number without leading zeros is as large as its number of digits says. -/
theorem pow_le_fromDigits {d : UInt8} {ds : Bytes} (hd : isDigit d = true) (hzero : d ≠ 0x30) :
    10 ^ ds.length ≤ fromDigits (d :: ds) := by
  have hpos : 1 ≤ d.toNat - 0x30 := by
    have hle : 0x30 ≤ d.toNat := by
      simp only [isDigit, Bool.and_eq_true, decide_eq_true_eq] at hd
      exact UInt8.le_iff_toNat_le.1 hd.1
    have hne : d.toNat ≠ 0x30 := fun h => hzero (UInt8.toNat_inj.1 h)
    omega
  rw [fromDigits, List.foldl_cons, foldl_digits]
  calc 10 ^ ds.length = 1 * 10 ^ ds.length := (Nat.one_mul _).symm
    _ ≤ (0 * 10 + (d.toNat - 0x30)) * 10 ^ ds.length := Nat.mul_le_mul_right _ (by omega)
    _ ≤ _ := Nat.le_add_right _ _

/-- A decimal number is zero, or it has no leading zero. -/
theorem IsDecimal.cases {ds : Bytes} (h : IsDecimal ds) :
    ds = [0x30] ∨ ∃ d ds', ds = d :: ds' ∧ isDigit d = true ∧ d ≠ 0x30 ∧ ∀ e ∈ ds', isDigit e = true := by
  obtain ⟨hne, hall, hzero⟩ := h
  obtain ⟨d, ds', rfl⟩ := List.exists_cons_of_ne_nil hne
  by_cases hd : d = 0x30
  · exact .inl (hzero (by rw [hd]; rfl))
  · exact .inr ⟨d, ds', rfl, hall d List.mem_cons_self, hd, fun e he => hall e (List.mem_cons_of_mem d he)⟩

theorem length_le_of_fromDigits_lt {d : UInt8} {ds : Bytes} {k : Nat} (hd : isDigit d = true) (hzero : d ≠ 0x30)
    (h : fromDigits (d :: ds) < 10 ^ k) : (d :: ds).length ≤ k := by
  have hlt := Nat.lt_of_le_of_lt (pow_le_fromDigits hd hzero) h
  exact (Nat.pow_lt_pow_iff_right (by omega)).1 hlt

theorem parseJsonNumber_plain {ds : Bytes} (h : IsDecimal ds) (hrange : fromDigits ds < 2 ^ 64) :
    parseJsonNumber toDouble 0 0 false ds = .ok (.uint64 (UInt64.ofNat (fromDigits ds))) := by
  rcases h.cases with rfl | ⟨d, ds', rfl, hd, hzero, -⟩
  · rfl
  · have hlen : (d :: ds').length ≤ 20 := length_le_of_fromDigits_lt hd hzero (by omega)
    have hall : (d :: ds').all isDigit = true := List.all_eq_true.2 h.2.1
    simp only [parseJsonNumber, Bool.false_eq_true, if_false, List.getD_cons_zero, hzero, false_and, ne_eq,
      not_true_eq_false, false_or, Nat.not_lt.2 hlen, toUint64, reduceCtorEq, not_false_eq_true, hall, hrange, and_self,
      if_true, Option.map_some]

theorem parseJsonNumber_minus {ds : Bytes} (h : IsDecimal ds) (hrange : fromDigits ds ≤ 2 ^ 63) :
    parseJsonNumber toDouble 0 0 true (0x2d :: ds) = .ok (Meaning.int (-fromDigits ds)).value := by
  rcases h.cases with rfl | ⟨d, ds', rfl, hd, hzero, -⟩
  · rfl
  · have hlen : (d :: ds').length ≤ 19 := length_le_of_fromDigits_lt hd hzero (by omega)
    have hlen' : (0x2d :: d :: ds').length ≤ 20 := by
      rw [List.length_cons]
      omega
    have hall : (d :: ds').all isDigit = true := List.all_eq_true.2 h.2.1
    have hpos : 0 < fromDigits (d :: ds') := Nat.lt_of_lt_of_le (Nat.pow_pos (by omega)) (pow_le_fromDigits hd hzero)
    have hneg : ¬(0 : Int) ≤ -fromDigits (d :: ds') := by omega
    simp only [parseJsonNumber, if_true, List.getD_cons_succ, List.getD_cons_zero, hzero, false_and, ne_eq,
      not_true_eq_false, if_false, false_or, Nat.not_lt.2 hlen', toInt64, reduceCtorEq, not_false_eq_true, hall, hrange,
      and_self, Option.map_some, Meaning.value, hneg]

/-! ## The run -/

/-- The characters behind a number: white space, a comma and the closing brackets. -/
def IsDelimiter (b : UInt8) : Prop := isWhiteSpace b.toNat = true ∨ b = 0x2c ∨ b = 0x5d ∨ b = 0x7d

/-- The parser inside a number. -/
structure ReadsNumber (p : Parser) (minus : Bool) (stack : List Item) : Prop where
  stack : p.stack = .number 0 0 minus :: stack
  reader : p.reader = []
  state : p.state = .parsing

theorem ReadsNumber.run_digit {p : Parser} {minus : Bool} {stack : List Item} (h : ReadsNumber p minus stack) {d : UInt8}
    (hd : isDigit d = true) (rest : Bytes) :
    run toDouble p (d :: rest) = run toDouble { p with numberText := p.numberText ++ [d] } rest := by
  have hall : ∀ n < 256, isDigit (UInt8.ofNat n) = true → UInt8.ofNat n < 0x80 ∧ 0x30 ≤ n ∧ n ≤ 0x39 := by decide +kernel
  have hrange := hall d.toNat d.toNat_lt (by rwa [UInt8.ofNat_toNat])
  rw [UInt8.ofNat_toNat] at hrange
  obtain ⟨hascii, hlow, hhigh⟩ := hrange
  have ht : turn toDouble p [] (d :: rest) = ⟨{ p with numberText := p.numberText ++ [d] }, [], rest, none⟩ := by
    simp only [turn, h.stack, parseNumber, withCodepoint_ascii h.reader hascii, numberCodepoint]
    rw [if_neg (by omega), if_neg (by omega), if_neg (by omega), if_neg (by omega), if_pos ⟨hlow, hhigh⟩]
    simp [Act.accept, ← h.stack]
  rw [run_step h.reader h.state (List.cons_ne_nil _ _) ht, flush_nil]

theorem ReadsNumber.run_digits {p : Parser} {minus : Bool} {stack : List Item} (h : ReadsNumber p minus stack) {ds : Bytes}
    (hds : ∀ d ∈ ds, isDigit d = true) (rest : Bytes) :
    run toDouble p (ds ++ rest) = run toDouble { p with numberText := p.numberText ++ ds } rest := by
  induction ds generalizing p with
  | nil => simp
  | cons d ds ih =>
      have hnext : ReadsNumber { p with numberText := p.numberText ++ [d] } minus stack := ⟨h.stack, h.reader, h.state⟩
      rw [List.cons_append, h.run_digit (hds d List.mem_cons_self), ih hnext fun e he => hds e (List.mem_cons_of_mem d he)]
      simp

/-- The end of a number whose last character is a digit. -/
theorem ReadsNumber.run_end {p : Parser} {minus : Bool} {stack : List Item} (h : ReadsNumber p minus stack) {b : UInt8}
    {v : Value} (hb : IsDelimiter b) (hdigit : endsInDigit p.numberText = true)
    (hv : parseJsonNumber toDouble 0 0 minus p.numberText = .ok v) (rest : Bytes) :
    run toDouble p (b :: rest) =
      run toDouble { p with handler := p.handler.pushValue v, numberText := [], stack } (b :: rest) := by
  have hascii : b < 0x80 ∧ b.toNat ≠ 0x2d ∧ b.toNat ≠ 0x2b ∧ b.toNat ≠ 0x2e ∧ ¬(b.toNat = 0x65 ∨ b.toNat = 0x45) ∧
      ¬(0x30 ≤ b.toNat ∧ b.toNat ≤ 0x39) := by
    rcases hb with hb | rfl | rfl | rfl
    · rcases isWhiteSpace_cases hb with rfl | rfl | rfl | rfl <;> decide
    all_goals decide
  obtain ⟨hascii, h1, h2, h3, h4, h5⟩ := hascii
  have ht : turn toDouble p [] (b :: rest) =
      ⟨{ p with handler := p.handler.pushValue v, numberText := [], stack }, [], b :: rest, none⟩ := by
    simp only [turn, h.stack, parseNumber, withCodepoint_ascii h.reader hascii, numberCodepoint, if_neg h1, if_neg h2,
      if_neg h3, if_neg h4, if_neg h5, if_pos hdigit, validateAndReportNumber, hv]
    rfl
  rw [run_step h.reader h.state (List.cons_ne_nil _ _) ht, flush_nil]

theorem endsInDigit_of_all {ds : Bytes} (hne : ds ≠ []) (h : ∀ d ∈ ds, isDigit d = true) (t : Bytes) :
    endsInDigit (t ++ ds) = true := by
  rw [endsInDigit, List.getLast?_append_of_ne_nil _ hne, List.getLast?_eq_some_getLast hne, Option.any_some]
  exact h _ (List.getLast_mem hne)

theorem isStart_of_isDigit {d : UInt8} (h : isDigit d = true) : isStart d = true := by simp [isStart, h]

theorem tryParseValue_digit (p : Parser) {d : UInt8} (h : isDigit d = true) :
    tryParseValue p d.toNat = some { p with numberText := p.numberText ++ [d], stack := .number 0 0 false :: p.stack } := by
  have hall : ∀ n < 256, isDigit (UInt8.ofNat n) = true → n ≠ 0x6e ∧ ¬(n = 0x74 ∨ n = 0x66) ∧ n ≠ 0x22 ∧ n ≠ 0x2d ∧
      0x30 ≤ n ∧ n ≤ 0x39 := by decide +kernel
  obtain ⟨h1, h2, h3, h4, hlow, hhigh⟩ := hall d.toNat d.toNat_lt (by rwa [UInt8.ofNat_toNat])
  simp [tryParseValue, h1, h2, h3, h4, hlow, hhigh]

/-- The characters of an integer are collected, and are the number then. -/
theorem Awaits.run_number {p p' : Parser} (h : Awaits toDouble p p') {t : Bytes} {i : Int} (ht : IntegerText t i)
    (hrange : -2 ^ 63 ≤ i ∧ i < 2 ^ 64) :
    ∃ minus, endsInDigit t = true ∧ parseJsonNumber toDouble 0 0 minus t = .ok (Meaning.int i).value ∧
      ∀ rest, run toDouble p (t ++ rest) =
        run toDouble { p' with numberText := t, stack := .number 0 0 minus :: p'.stack } rest := by
  cases ht with
  | plain hds =>
      obtain ⟨hne, hall, -⟩ := id hds
      have hvalue : (Meaning.int (fromDigits t)).value = .uint64 (UInt64.ofNat (fromDigits t)) := by
        simp [Meaning.value]
      refine ⟨false, endsInDigit_of_all hne hall [], hvalue ▸ parseJsonNumber_plain hds (by omega), fun rest => ?_⟩
      obtain ⟨d, ds, rfl⟩ := List.exists_cons_of_ne_nil hne
      have hd := hall d List.mem_cons_self
      have hreads : ReadsNumber { p' with numberText := p'.numberText ++ [d], stack := .number 0 0 false :: p'.stack } false
          p'.stack := ⟨rfl, h.clean'.reader, h.clean'.state⟩
      rw [List.cons_append, h.run_start (isStart_of_isDigit hd) (tryParseValue_digit p' hd),
        hreads.run_digits fun e he => hall e (List.mem_cons_of_mem d he)]
      simp [h.clean'.numberText]
  | @minus ds hds =>
      obtain ⟨hne, hall, -⟩ := id hds
      refine ⟨true, endsInDigit_of_all hne hall [0x2d], parseJsonNumber_minus hds (by omega), fun rest => ?_⟩
      have hreads : ReadsNumber { p' with numberText := p'.numberText ++ [0x2d], stack := .number 0 0 true :: p'.stack } true
          p'.stack := ⟨rfl, h.clean'.reader, h.clean'.state⟩
      have htry : tryParseValue p' (0x2d : UInt8).toNat =
          some { p' with numberText := p'.numberText ++ [0x2d], stack := .number 0 0 true :: p'.stack } := rfl
      rw [List.cons_append, h.run_start (by decide) htry, hreads.run_digits hall]
      simp [h.clean'.numberText]

theorem Awaits.run_int {p p' : Parser} (h : Awaits toDouble p p') {t : Bytes} {i : Int} (ht : IntegerText t i)
    (hrange : -2 ^ 63 ≤ i ∧ i < 2 ^ 64) {b : UInt8} (hb : IsDelimiter b) (rest : Bytes) :
    run toDouble p (t ++ b :: rest) = run toDouble (p'.pushed (Meaning.int i).value) (b :: rest) := by
  obtain ⟨minus, hdigit, hv, hrun⟩ := h.run_number ht hrange
  have hend : ReadsNumber { p' with numberText := t, stack := .number 0 0 minus :: p'.stack } minus p'.stack :=
    ⟨rfl, h.clean'.reader, h.clean'.state⟩
  rw [hrun, hend.run_end hb hdigit hv, Parser.pushed, ← h.clean'.numberText]

end Rad.Json
