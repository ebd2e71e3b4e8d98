import Rad.Json.Lemmas.Tokens

/-!
# Numbers

The numbers of the grammar, what the parser takes as the text of one, and what passes its checks.
-/

namespace Rad.Json

/-! ## The grammar -/

def AllDigits (digits : Bytes) : Prop := ∀ d ∈ digits, isDigit d = true

def isExponentLetter (b : UInt8) : Bool := b == 0x65 || b == 0x45

inductive FractionText : Bytes → Prop where
  | none : FractionText []
  | some {digits : Bytes} (hne : digits ≠ []) (h : AllDigits digits) : FractionText (0x2e :: digits)

inductive ExponentText : Bytes → Prop where
  | none : ExponentText []
  | some {letter : UInt8} {sign digits : Bytes} (hletter : isExponentLetter letter = true)
      (hsign : sign = [] ∨ sign = [0x2b] ∨ sign = [0x2d]) (hne : digits ≠ []) (h : AllDigits digits) :
      ExponentText (letter :: (sign ++ digits))

/-- The numbers of the grammar of RFC 8259. -/
inductive NumberText : Bytes → Prop where
  | mk {sign digits fraction exponent : Bytes} (hsign : sign = [] ∨ sign = [0x2d]) (hdigits : IsDecimal digits)
      (hfraction : FractionText fraction) (hexponent : ExponentText exponent) :
      NumberText (sign ++ (digits ++ (fraction ++ exponent)))

/-! ## What the parser accepts besides -/

/-- There is one point at most, and one letter of an exponent, with no point behind it. -/
def MayPrecede (b c : UInt8) : Prop :=
  (c = 0x2e → b ≠ 0x2e ∧ isExponentLetter b = false) ∧ (isExponentLetter c = true → isExponentLetter b = false)

instance (b c : UInt8) : Decidable (MayPrecede b c) := inferInstanceAs (Decidable (_ ∧ _))

/-- A number that begins with a minus sign and a point, or with a minus sign, a zero and a digit, or one with points or letters
of exponents that do not belong together. -/
def NumberSlip (token : Bytes) : Prop :=
  token.take 2 = [0x2d, 0x2e] ∨ (token.take 2 = [0x2d, 0x30] ∧ (token.drop 2).head?.any isDigit = true) ∨
    ¬token.Pairwise MayPrecede

instance (token : Bytes) : Decidable (NumberSlip token) := inferInstanceAs (Decidable (_ ∨ _ ∨ _))

theorem isDigit_facts {d : UInt8} (h : isDigit d = true) : d ≠ 0x2d ∧ d ≠ 0x2b ∧ d ≠ 0x2e ∧ isExponentLetter d = false := by
  refine ⟨?_, ?_, ?_, ?_⟩
  · rintro rfl
    cases h
  · rintro rfl
    cases h
  · rintro rfl
    cases h
  · by_contra hletter
    rw [Bool.not_eq_false, isExponentLetter, Bool.or_eq_true, beq_iff_eq, beq_iff_eq] at hletter
    rcases hletter with rfl | rfl <;> cases h

/-- A character that is neither a point nor the letter of an exponent. -/
def Neutral (b : UInt8) : Prop := b ≠ 0x2e ∧ isExponentLetter b = false

theorem Neutral.left {b : UInt8} (h : Neutral b) (c : UInt8) : MayPrecede b c := ⟨fun _ => h, fun _ => h.2⟩

theorem Neutral.right {c : UInt8} (h : Neutral c) (b : UInt8) : MayPrecede b c :=
  ⟨fun hc => absurd hc h.1, fun hc => by rw [h.2] at hc; cases hc⟩

theorem AllDigits.neutral {digits : Bytes} (h : AllDigits digits) : ∀ b ∈ digits, Neutral b := fun b hb =>
  let ⟨_, _, hpoint, hletter⟩ := isDigit_facts (h b hb)
  ⟨hpoint, hletter⟩

theorem pairwise_neutral {t u : Bytes} (ht : ∀ b ∈ t, Neutral b) :
    (t ++ u).Pairwise MayPrecede ↔ u.Pairwise MayPrecede := by
  rw [List.pairwise_append]
  refine ⟨fun h => h.2.1, fun h => ⟨?_, h, fun b hb c _ => (ht b hb).left c⟩⟩
  exact List.pairwise_of_forall_mem_list fun b hb c _ => (ht b hb).left c

theorem neutral_sign {sign : Bytes} (h : sign = [] ∨ sign = [0x2b] ∨ sign = [0x2d]) : ∀ b ∈ sign, Neutral b := by
  rcases h with rfl | rfl | rfl
  · nofun
  all_goals
    intro b hb
    obtain rfl := List.mem_singleton.1 hb
    exact ⟨by decide, rfl⟩

theorem FractionText.noDigit {fraction exponent : Bytes} (hfraction : FractionText fraction)
    (hexponent : ExponentText exponent) : (fraction ++ exponent).head?.any isDigit = false := by
  cases hfraction with
  | some => rfl
  | none =>
      cases hexponent with
      | none => rfl
      | @some letter sign digits hletter =>
          by_contra hdigit
          rw [Bool.not_eq_false] at hdigit
          rw [(isDigit_facts hdigit).2.2.2] at hletter
          cases hletter

theorem ExponentText.pairwise {exponent : Bytes} (h : ExponentText exponent) :
    exponent.Pairwise MayPrecede ∧ ∀ c ∈ exponent, MayPrecede 0x2e c := by
  cases h with
  | none => exact ⟨.nil, nofun⟩
  | @some letter sign digits hletter hsign _ hdigits =>
      have hneutral : ∀ b ∈ sign ++ digits, Neutral b := fun b hb =>
        (List.mem_append.1 hb).elim (neutral_sign hsign b) (hdigits.neutral b)
      have hall := (pairwise_neutral hneutral).2 .nil
      rw [List.append_nil] at hall
      refine ⟨List.pairwise_cons.2 ⟨fun c hc => (hneutral c hc).right letter, hall⟩, ?_⟩
      rintro c (_ | ⟨_, hc⟩)
      · refine ⟨?_, fun _ => rfl⟩
        rintro rfl
        cases hletter
      · exact (hneutral c hc).right _

/-- The numbers of the grammar are none of those. -/
theorem NumberText.not_slip {token : Bytes} (h : NumberText token) : ¬NumberSlip token := by
  obtain @⟨sign, digits, fraction, exponent, hsign, ⟨hne, hdigits, hzero⟩, hfraction, hexponent⟩ := h
  obtain ⟨d, ds, rfl⟩ := List.exists_cons_of_ne_nil hne
  have hd := isDigit_facts (hdigits d List.mem_cons_self)
  rintro (hpoint | ⟨hstart, hdigit⟩ | hpairs)
  · rcases hsign with rfl | rfl
    · exact hd.1 (List.cons.inj hpoint).1
    · exact hd.2.2.1 (List.cons.inj (List.cons.inj hpoint).2).1
  · rcases hsign with rfl | rfl
    · exact hd.1 (List.cons.inj hstart).1
    · obtain rfl : d = 0x30 := (List.cons.inj (List.cons.inj hstart).2).1
      rw [hzero rfl] at hdigit
      have hfalse := hfraction.noDigit hexponent
      exact Bool.false_ne_true (hfalse.symm.trans hdigit)
  · have hsign' : ∀ b ∈ sign, Neutral b := neutral_sign (hsign.imp_right .inr)
    obtain ⟨hexponent', hpoint⟩ := hexponent.pairwise
    refine hpairs ((pairwise_neutral hsign').2 ((pairwise_neutral (AllDigits.neutral hdigits)).2 ?_))
    cases hfraction with
    | none => exact hexponent'
    | @some digits' _ hdigits' =>
        have hneutral := AllDigits.neutral hdigits'
        rw [List.cons_append, List.pairwise_cons]
        refine ⟨fun c hc => ?_, (pairwise_neutral hneutral).2 hexponent'⟩
        rcases List.mem_append.1 hc with hc | hc
        · exact (hneutral c hc).right _
        · exact hpoint c hc

/-! ## What the parser reads -/

/-- The text of a number that is read so far, and what `has_minus` is: a minus sign in the exponent takes the place of the
first one. -/
inductive Read : Bytes → Bool → Prop where
  | integer {sign digits : Bytes} (hsign : sign = [] ∨ sign = [0x2d]) (hdigits : AllDigits digits)
      (hne : digits = [] → sign ≠ []) : Read (sign ++ digits) (decide (sign ≠ []))
  | fraction {sign digits fraction : Bytes} (hsign : sign = [] ∨ sign = [0x2d]) (hdigits : AllDigits digits)
      (hne : digits = [] → sign ≠ []) (hfraction : AllDigits fraction) :
      Read (sign ++ (digits ++ 0x2e :: fraction)) (decide (sign ≠ []))
  | exponent {sign digits fraction exponentSign exponent : Bytes} {letter : UInt8} (hsign : sign = [] ∨ sign = [0x2d])
      (hdigits : AllDigits digits) (hne : digits = [] → sign ≠ [] ∧ fraction ≠ []) (hfraction : FractionText fraction)
      (hletter : isExponentLetter letter = true)
      (hexponentSign : exponentSign = [] ∨ exponentSign = [0x2b] ∨ exponentSign = [0x2d]) (hexponent : AllDigits exponent) :
      Read (sign ++ (digits ++ (fraction ++ letter :: (exponentSign ++ exponent))))
        (decide (sign ≠ []) && decide (exponentSign ≠ [0x2d]))

theorem AllDigits.concat {digits : Bytes} (h : AllDigits digits) {d : UInt8} (hd : isDigit d = true) :
    AllDigits (digits ++ [d]) := by
  intro e he
  rcases List.mem_append.1 he with he | he
  · exact h e he
  · exact List.mem_singleton.1 he ▸ hd

namespace Read

variable {text : Bytes} {hasMinus : Bool}

theorem start {b : UInt8} (h : b = 0x2d ∨ isDigit b = true) : Read [b] (decide (b = 0x2d)) := by
  rcases h with rfl | hdigit
  · exact .integer (.inr rfl) nofun fun _ => nofun
  · have hall : AllDigits [b] := fun d hd => List.mem_singleton.1 hd ▸ hdigit
    have hread := @integer [] [b] (.inl rfl) hall nofun
    rwa [show decide (b = 0x2d) = false from decide_eq_false (isDigit_facts hdigit).1]

theorem digit (h : Read text hasMinus) {d : UInt8} (hd : isDigit d = true) : Read (text ++ [d]) hasMinus := by
  cases h with
  | integer hsign hdigits hne =>
      rw [List.append_assoc]
      exact .integer hsign (hdigits.concat hd) fun hnil => absurd hnil (by simp)
  | fraction hsign hdigits hne hfraction =>
      rw [List.append_assoc, List.append_assoc, List.cons_append]
      exact .fraction hsign hdigits hne (hfraction.concat hd)
  | exponent hsign hdigits hne hfraction hletter hexponentSign hexponent =>
      rw [List.append_assoc, List.append_assoc, List.append_assoc, List.cons_append, List.append_assoc]
      exact .exponent hsign hdigits hne hfraction hletter hexponentSign (hexponent.concat hd)

/-- What stands behind a point or the letter of an exponent. -/
theorem pairwise_concat {c : UInt8} (h : (text ++ [c]).Pairwise MayPrecede) {b : UInt8} (hb : b ∈ text) : MayPrecede b c :=
  (List.pairwise_append.1 h).2.2 b hb c List.mem_cons_self

theorem point (h : Read text hasMinus) (hpairs : (text ++ [0x2e]).Pairwise MayPrecede) : Read (text ++ [0x2e]) hasMinus := by
  cases h with
  | integer hsign hdigits hne =>
      rw [List.append_assoc]
      exact .fraction hsign hdigits hne nofun
  | fraction hsign hdigits hne hfraction => exact absurd rfl ((pairwise_concat hpairs (b := 0x2e) (by simp)).1 rfl).1
  | @exponent _ _ _ _ _ letter hsign hdigits hne hfraction hletter hexponentSign hexponent =>
      have hnone := ((pairwise_concat hpairs (b := letter) (by simp)).1 rfl).2
      rw [hletter] at hnone
      cases hnone

theorem letter (h : Read text hasMinus) {letter : UInt8} (hletter : isExponentLetter letter = true)
    (hpairs : (text ++ [letter]).Pairwise MayPrecede) (hpoint : text.getLast? ≠ some 0x2e)
    (hminus : text.getLast? ≠ some 0x2d) : Read (text ++ [letter]) hasMinus := by
  cases h with
  | @integer sign digits hsign hdigits hne =>
      have hread := @exponent sign digits [] [] [] letter hsign hdigits ?_ .none hletter (.inl rfl) nofun
      · simpa using hread
      · rintro rfl
        rcases hsign with rfl | rfl
        · exact absurd rfl (hne rfl)
        · exact absurd rfl hminus
  | @fraction sign digits fraction hsign hdigits hne hfraction =>
      have hsome : fraction ≠ [] := by
        rintro rfl
        exact hpoint (by simp)
      have hread := @exponent sign digits (0x2e :: fraction) [] [] letter hsign hdigits (fun hnil => ⟨hne hnil, nofun⟩)
        (.some hsome hfraction) hletter (.inl rfl) nofun
      simpa using hread
  | @exponent _ _ _ _ _ letter' hsign hdigits hne hfraction hletter' hexponentSign hexponent =>
      have hnone := (pairwise_concat hpairs (b := letter') (by simp)).2 hletter
      rw [hletter'] at hnone
      cases hnone

theorem endsInExponent_iff {t : Bytes} : endsInExponent t = true ↔ ∃ b, t.getLast? = some b ∧ isExponentLetter b = true := by
  rw [endsInExponent, Bool.or_eq_true, decide_eq_true_eq, decide_eq_true_eq]
  constructor
  · rintro (h | h)
    · exact ⟨_, h, rfl⟩
    · exact ⟨_, h, rfl⟩
  · rintro ⟨b, h, hb⟩
    rw [isExponentLetter, Bool.or_eq_true, beq_iff_eq, beq_iff_eq] at hb
    rcases hb with rfl | rfl
    · exact .inl h
    · exact .inr h

/-- A sign that is not the first character stands behind the letter of the exponent. -/
theorem sign (h : Read text hasMinus) (hends : endsInExponent text = true) {c : UInt8} (hc : c = 0x2b ∨ c = 0x2d) :
    Read (text ++ [c]) (hasMinus && decide (c ≠ 0x2d)) := by
  obtain ⟨b, hlast, hb⟩ := endsInExponent_iff.1 hends
  have hneutral : ∀ {t u : Bytes}, u ≠ [] → (∀ b ∈ u, isExponentLetter b = false) → (t ++ u).getLast? ≠ some b := by
    intro t u hne hu hsome
    rw [List.getLast?_append_of_ne_nil _ hne] at hsome
    have hfalse := hu b (List.mem_of_getLast? hsome)
    rw [hb] at hfalse
    cases hfalse
  cases h with
  | @integer sign digits hsign hdigits hne =>
      have hall : ∀ b ∈ sign ++ digits, isExponentLetter b = false := fun b hb =>
        (List.mem_append.1 hb).elim (fun hb => (neutral_sign (hsign.imp_right .inr) b hb).2) fun hb => (hdigits.neutral b hb).2
      have hsome : sign ++ digits ≠ [] := fun hnil => hne (List.append_eq_nil_iff.1 hnil).2 (List.append_eq_nil_iff.1 hnil).1
      exact absurd hlast (hneutral (t := []) hsome hall)
  | @fraction sign digits fraction hsign hdigits hne hfraction =>
      have hall : ∀ b ∈ 0x2e :: fraction, isExponentLetter b = false :=
        List.forall_mem_cons.2 ⟨rfl, fun b hb => (hfraction.neutral b hb).2⟩
      rw [← List.append_assoc] at hlast
      exact absurd hlast (hneutral (List.cons_ne_nil _ _) hall)
  | @exponent sign digits fraction exponentSign exponent letter hsign hdigits hne hfraction hletter hexponentSign hexponent =>
      have hall : ∀ b ∈ exponentSign ++ exponent, isExponentLetter b = false := fun b hb =>
        (List.mem_append.1 hb).elim (fun hb => (neutral_sign hexponentSign b hb).2) fun hb => (hexponent.neutral b hb).2
      have hnil : exponentSign ++ exponent = [] := by
        by_contra hsome
        refine hneutral (t := sign ++ (digits ++ (fraction ++ [letter]))) hsome hall ?_
        simpa using hlast
      obtain ⟨rfl, rfl⟩ := List.append_eq_nil_iff.1 hnil
      have hread := @Read.exponent sign digits fraction [c] [] letter hsign hdigits hne hfraction hletter
        (.inr (by rcases hc with rfl | rfl; exact .inl rfl; exact .inr rfl)) nofun
      simpa using hread

end Read

/-- The digits in front of the point are a decimal, unless a minus sign and a zero are in front of another digit. -/
theorem isDecimal_of_not_slip {sign digits tail : Bytes} (hsign : sign = [] ∨ sign = [0x2d]) (hdigits : AllDigits digits)
    (hne : digits ≠ []) (hslip : ¬NumberSlip (sign ++ (digits ++ tail)))
    (hzero : sign = [] → ∀ d more, digits ++ tail = 0x30 :: d :: more → isDigit d = false) : IsDecimal digits := by
  refine ⟨hne, hdigits, fun hhead => ?_⟩
  obtain ⟨d, ds, rfl⟩ := List.exists_cons_of_ne_nil hne
  obtain rfl : d = 0x30 := Option.some.inj hhead
  cases ds with
  | nil => rfl
  | cons d ds =>
      have hd := hdigits d (List.mem_cons_of_mem _ List.mem_cons_self)
      rcases hsign with rfl | rfl
      · rw [hzero rfl d (ds ++ tail) rfl] at hd
        cases hd
      · exact absurd (.inr (.inl ⟨rfl, hd⟩)) hslip

/-- What passes the checks at the end of a number. -/
theorem Read.number {text : Bytes} {hasMinus : Bool} (h : Read text hasMinus) (hends : endsInDigit text = true)
    (hzero : hasMinus = false → ∀ d more, text = 0x30 :: d :: more → isDigit d = false) (hslip : ¬NumberSlip text) :
    NumberText text := by
  have hlast : ∀ {t u : Bytes}, u ≠ [] → t ++ u = text → u.getLast?.any isDigit = true := by
    rintro t u hne rfl
    rwa [endsInDigit, List.getLast?_append_of_ne_nil _ hne] at hends
  cases h with
  | @integer sign digits hsign hdigits hne =>
      have hsome : digits ≠ [] := by
        rintro rfl
        have hminus := hlast (t := []) (hne rfl) (by simp)
        rcases hsign with rfl | rfl <;> cases hminus
      rw [← List.append_nil digits] at hslip hzero
      have hdecimal := isDecimal_of_not_slip hsign hdigits hsome hslip ?_
      · simpa using NumberText.mk hsign hdecimal .none .none
      · rintro rfl
        exact hzero rfl
  | @fraction sign digits fraction hsign hdigits hne hfraction =>
      have hsome : digits ≠ [] := by
        rintro rfl
        rcases hsign with rfl | rfl
        · exact hne rfl rfl
        · exact hslip (.inl rfl)
      have hfractionSome : fraction ≠ [] := by
        rintro rfl
        have hpoint := hlast (t := sign ++ digits) (u := [0x2e]) nofun (by simp)
        cases hpoint
      have hdecimal := isDecimal_of_not_slip hsign hdigits hsome hslip ?_
      · simpa using NumberText.mk hsign hdecimal (.some hfractionSome hfraction) .none
      · rintro rfl
        exact hzero rfl
  | @exponent sign digits fraction exponentSign exponent letter hsign hdigits hne hfraction hletter hexponentSign hexponent =>
      have hsome : digits ≠ [] := by
        rintro rfl
        obtain ⟨hsignSome, hfractionSome⟩ := hne rfl
        obtain rfl := hsign.resolve_left hsignSome
        cases hfraction with
        | none => exact hfractionSome rfl
        | some => exact hslip (.inl rfl)
      have hexponentSome : exponent ≠ [] := by
        rintro rfl
        have hdigit := hlast (t := sign ++ (digits ++ fraction)) (u := letter :: exponentSign) nofun (by simp)
        rcases hexponentSign with rfl | rfl | rfl
        · obtain ⟨-, -, -, hfalse⟩ := @isDigit_facts letter hdigit
          rw [hletter] at hfalse
          cases hfalse
        all_goals cases hdigit
      have hdecimal := isDecimal_of_not_slip hsign hdigits hsome hslip ?_
      · exact .mk hsign hdecimal hfraction (.some hletter hexponentSign hexponentSome hexponent)
      · rintro rfl
        exact hzero rfl

/-! ## The code points of a number -/

def isNumberByte (b : UInt8) : Bool := isDigit b || b == 0x2b || b == 0x2d || b == 0x2e || isExponentLetter b

theorem isNumberByte_iff {b : UInt8} :
    isNumberByte b = true ↔ b.toNat = 0x2d ∨ b.toNat = 0x2b ∨ b.toNat = 0x2e ∨ (b.toNat = 0x65 ∨ b.toNat = 0x45) ∨
      (0x30 ≤ b.toNat ∧ b.toNat ≤ 0x39) := by
  have hall : ∀ n < 256, isNumberByte (UInt8.ofNat n) = true ↔ n = 0x2d ∨ n = 0x2b ∨ n = 0x2e ∨ (n = 0x65 ∨ n = 0x45) ∨
      (0x30 ≤ n ∧ n ≤ 0x39) := by decide +kernel
  have := hall b.toNat b.toNat_lt
  rwa [UInt8.ofNat_toNat] at this

theorem isNumberByte_ascii {b : UInt8} (h : isNumberByte b = true) : b < 0x80 := by
  rw [isNumberByte_iff] at h
  rw [UInt8.lt_iff_toNat_lt]
  have : (0x80 : UInt8).toNat = 0x80 := rfl
  omega

theorem isNumberByte_start {b : UInt8} (h : b.toNat = 0x2d ∨ (0x30 ≤ b.toNat ∧ b.toNat ≤ 0x39)) : isNumberByte b = true := by
  rw [isNumberByte_iff]
  omega

/-- The bytes that begin a number. -/
def isNumberStart (b : UInt8) : Bool := b == 0x2d || isDigit b

theorem isNumberStart_facts {b : UInt8} (h : isNumberStart b = true) :
    b < 0x80 ∧ isNumberByte b = true ∧ isWhiteSpace b.toNat = false ∧
      (b.toNat = 0x2d ∨ (0x30 ≤ b.toNat ∧ b.toNat ≤ 0x39)) := by
  have hall : ∀ n < 256, isNumberStart (UInt8.ofNat n) = true → UInt8.ofNat n < 0x80 ∧ isNumberByte (UInt8.ofNat n) = true ∧
      isWhiteSpace n = false ∧ (n = 0x2d ∨ (0x30 ≤ n ∧ n ≤ 0x39)) := by decide +kernel
  have := hall b.toNat b.toNat_lt (by rwa [UInt8.ofNat_toNat])
  rwa [UInt8.ofNat_toNat] at this

variable {toDouble : Bool → Bytes → Except ErrorCode UInt64}

theorem parseJsonNumber_zero {pointPos ePos : Nat} {d : UInt8} {more : Bytes} {v : Value}
    (h : parseJsonNumber toDouble pointPos ePos false (0x30 :: d :: more) = .ok v) : isDigit d = false := by
  by_contra hdigit
  rw [Bool.not_eq_false] at hdigit
  obtain ⟨-, -, hpoint, hletter⟩ := isDigit_facts hdigit
  rw [isExponentLetter, Bool.or_eq_false_iff, beq_eq_false_iff_ne, beq_eq_false_iff_ne] at hletter
  simp [parseJsonNumber, hpoint, hletter] at h

section

variable {p : Parser} {pointPos ePos cp : Nat} {hasMinus : Bool} {below : List Item}

/-- What a code point behind the beginning of a number does when it makes no error. -/
theorem numberCodepoint_cases (hne : p.numberText ≠ [])
    (hec : (numberCodepoint toDouble pointPos ePos hasMinus below p cp).ec = none) :
    ((∀ b : UInt8, b.toNat = cp → isNumberByte b = false) ∧
      (numberCodepoint toDouble pointPos ePos hasMinus below p cp).consumed = false ∧ endsInDigit p.numberText = true ∧
      ∃ v, parseJsonNumber toDouble pointPos ePos hasMinus p.numberText = .ok v ∧
        (numberCodepoint toDouble pointPos ePos hasMinus below p cp).parser =
          { p with handler := p.handler.pushValue v, numberText := [], stack := below }) ∨
    ∃ (b : UInt8) (pointPos' ePos' : Nat) (hasMinus' : Bool), b.toNat = cp ∧ b < 0x80 ∧ isNumberByte b = true ∧
      numberCodepoint toDouble pointPos ePos hasMinus below p cp =
        .accept { p with numberText := p.numberText ++ [b], stack := .number pointPos' ePos' hasMinus' :: below } ∧
      (Read p.numberText hasMinus → (p.numberText ++ [b]).Pairwise MayPrecede → Read (p.numberText ++ [b]) hasMinus') := by
  simp only [numberCodepoint] at hec ⊢
  split at hec
  · rename_i hcp
    subst hcp
    split at hec
    · rename_i hends
      have hends' := hends.resolve_left hne
      refine .inr ⟨0x2d, pointPos, ePos, false, rfl, by decide, by decide, ?_, fun hread _ => ?_⟩
      · rw [if_pos rfl, if_pos hends]
        simp [hne]
      · have hsign := hread.sign hends' (.inr rfl)
        simpa using hsign
    · cases hec
  split at hec
  · rename_i hminus hcp
    subst hcp
    split at hec
    · rename_i hends
      refine .inr ⟨0x2b, pointPos, ePos, hasMinus, rfl, by decide, by decide, ?_, fun hread _ => ?_⟩
      · rw [if_neg hminus, if_pos rfl, if_pos hends]
        rfl
      · have hsign := hread.sign hends (.inl rfl)
        simpa using hsign
    · cases hec
  split at hec
  · rename_i hminus hplus hcp
    subst hcp
    split at hec
    · cases hec
    · rename_i hfree
      refine .inr ⟨0x2e, p.numberText.length % 2 ^ 32, ePos, hasMinus, rfl, by decide, by decide, ?_,
        fun hread hpairs => hread.point hpairs⟩
      rw [if_neg hminus, if_neg hplus, if_pos rfl, if_neg hfree]
      rfl
  split at hec
  · rename_i hminus hplus hpoint hcp
    split at hec
    · cases hec
    · rename_i hfree
      obtain ⟨b, hb, hascii, hletter⟩ : ∃ b : UInt8, b.toNat = cp ∧ b < 0x80 ∧ isExponentLetter b = true := by
        rcases hcp with rfl | rfl
        · exact ⟨0x65, rfl, by decide, rfl⟩
        · exact ⟨0x45, rfl, by decide, rfl⟩
      subst hb
      refine .inr ⟨b, pointPos, p.numberText.length % 2 ^ 32, hasMinus, rfl, hascii, by simp [isNumberByte, hletter], ?_,
        fun hread hpairs => ?_⟩
      · rw [if_neg hminus, if_neg hplus, if_neg hpoint, if_pos hcp, if_neg hfree, UInt8.ofNat_toNat]
      · simp only [not_or] at hfree
        exact hread.letter hletter hpairs hfree.2.2.1 hfree.2.2.2
  split at hec
  · rename_i hminus hplus hpoint hletter hdigit
    have hcp : (UInt8.ofNat cp).toNat = cp := by rw [UInt8.toNat_ofNat', Nat.mod_eq_of_lt (by omega)]
    have hisDigit : isDigit (UInt8.ofNat cp) = true := by
      simp only [isDigit, UInt8.le_iff_toNat_le, hcp, Bool.and_eq_true, decide_eq_true_eq]
      exact hdigit
    refine .inr ⟨UInt8.ofNat cp, pointPos, ePos, hasMinus, hcp, ?_, by simp [isNumberByte, hisDigit], ?_,
      fun hread _ => hread.digit hisDigit⟩
    · rw [UInt8.lt_iff_toNat_lt, hcp]
      exact Nat.lt_of_le_of_lt hdigit.2 (by decide)
    · rw [if_neg hminus, if_neg hplus, if_neg hpoint, if_neg hletter, if_pos hdigit]
  split at hec
  · rename_i hminus hplus hpoint hletter hdigit hends
    refine .inl ⟨?_, ?_, hends, ?_⟩
    · rintro b rfl
      rw [← Bool.not_eq_true, isNumberByte_iff]
      exact not_or.2 ⟨hminus, not_or.2 ⟨hplus, not_or.2 ⟨hpoint, not_or.2 ⟨hletter, hdigit⟩⟩⟩⟩
    · rw [if_neg hminus, if_neg hplus, if_neg hpoint, if_neg hletter, if_neg hdigit, if_pos hends]
    · dsimp only [validateAndReportNumber] at hec
      cases hparse : parseJsonNumber toDouble pointPos ePos hasMinus p.numberText with
      | error e =>
          rw [hparse] at hec
          cases hec
      | ok v =>
          refine ⟨v, rfl, ?_⟩
          rw [if_neg hminus, if_neg hplus, if_neg hpoint, if_neg hletter, if_neg hdigit, if_pos hends, validateAndReportNumber,
            hparse]
  · cases hec

end

end Rad.Json
