import Mathlib.Tactic.Ring
import Rad.Json.Grammar
import Rad.Json.Lemmas.Run

/-!
# Reading the tokens of a text

White space, literals, strings and integers, as the parser reads them when more text is behind.
-/

namespace Rad.Json

variable {toDouble : Bool → Bytes → Except ErrorCode UInt64}

/-! ## Steps of a run -/

/-- A parser with nothing left over from what it has read: it is between two tokens. -/
structure Clean (p : Parser) : Prop where
  reader : p.reader = []
  esc : p.esc = .none
  numberText : p.numberText = []
  chars : p.handler.stackChars = []
  state : p.state = .parsing

/-- A turn is the first of a run. -/
theorem run_step {p q : Parser} {jtext seen rest : Bytes} (hreader : p.reader = []) (hstate : p.state = .parsing)
    (hne : jtext ≠ []) (h : turn toDouble p [] jtext = ⟨q, seen, rest, none⟩) :
    run toDouble p jtext = run toDouble (q.flush seen) rest := by
  have hturn : eagerTurn toDouble p jtext = ⟨q.flush seen, [], rest, none⟩ := by rw [eagerTurn, h]; rfl
  rw [run_next (.inl hreader) hne (by rw [hstate]; nofun) (by rw [hturn]), hturn]

theorem withCodepoint_ascii {p : Parser} (hreader : p.reader = []) {b : UInt8} (hb : b < 0x80) (rest : Bytes)
    (act : Parser → Nat → Act) :
    withCodepoint p (b :: rest) act =
      ⟨(act p b.toNat).parser, [], if (act p b.toNat).consumed then rest else b :: rest, (act p b.toNat).ec⟩ := by
  have hp : ({ p with reader := [] } : Parser) = p := by rw [← hreader]
  simp only [withCodepoint, hreader, decode_ascii hb, hp]

/-! ## White space -/

theorem isWhiteSpace_cases {b : UInt8} (h : isWhiteSpace b.toNat = true) : b = 0x20 ∨ b = 0x09 ∨ b = 0x0a ∨ b = 0x0d := by
  simp only [isWhiteSpace, Bool.or_eq_true, beq_iff_eq] at h
  have hb : ∀ c : UInt8, b.toNat = c.toNat → b = c := fun c => UInt8.toNat_inj.1
  rcases h with ((h | h) | h) | h
  · exact .inl (hb 0x20 h)
  · exact .inr (.inl (hb 0x09 h))
  · exact .inr (.inr (.inl (hb 0x0a h)))
  · exact .inr (.inr (.inr (hb 0x0d h)))

/-- The parser passes over white space. -/
def SkipsWhite (p : Parser) : Prop :=
  match p.stack with
  | .document 0 :: _ => True
  | .key true :: _ => True
  | .array _ _ :: _ => True
  | .object _ _ :: _ => True
  | _ => False

theorem turn_white {p : Parser} {b : UInt8} (hreader : p.reader = []) (hskips : SkipsWhite p)
    (hb : isWhiteSpace b.toNat = true) (rest : Bytes) : turn toDouble p [] (b :: rest) = ⟨p, [], rest, none⟩ := by
  have hascii : b < 0x80 := by rcases isWhiteSpace_cases hb with rfl | rfl | rfl | rfl <;> decide
  have hother : b.toNat ≠ 0x5d ∧ b.toNat ≠ 0x7d := by
    rcases isWhiteSpace_cases hb with rfl | rfl | rfl | rfl <;> decide
  cases hstack : p.stack with
  | nil => simp [SkipsWhite, hstack] at hskips
  | cons item stack =>
      cases item with
      | document n =>
          cases n with
          | zero => simp [turn, hstack, parseDocument, utf8Decode_ascii hascii, hb]
          | succ n => simp [SkipsWhite, hstack] at hskips
      | key parsedName =>
          cases parsedName with
          | true => simp [turn, hstack, parseKey, withCodepoint_ascii hreader hascii, colonCodepoint, hb, Act.accept]
          | false => simp [SkipsWhite, hstack] at hskips
      | array n step =>
          simp [turn, hstack, parseArray, withCodepoint_ascii hreader hascii, arrayCodepoint, hother.1, hb, Act.accept]
      | object n step =>
          simp [turn, hstack, parseObject, withCodepoint_ascii hreader hascii, objectCodepoint, hother.2, hb, Act.accept]
      | _ => simp [SkipsWhite, hstack] at hskips

theorem run_white {p : Parser} {ws : Bytes} (hclean : Clean p) (hskips : SkipsWhite p) (hws : WhiteSpace ws) (rest : Bytes) :
    run toDouble p (ws ++ rest) = run toDouble p rest := by
  induction ws with
  | nil => rfl
  | cons b ws ih =>
      have hturn := @turn_white toDouble p b hclean.reader hskips (hws b List.mem_cons_self) (ws ++ rest)
      rw [List.cons_append, run_step hclean.reader hclean.state (List.cons_ne_nil _ _) hturn, flush_nil]
      exact ih fun c hc => hws c (List.mem_cons_of_mem b hc)

/-! ## Values -/

/-- The bytes that a value can begin with. -/
def isStart (b : UInt8) : Bool :=
  b == 0x6e || b == 0x74 || b == 0x66 || b == 0x22 || b == 0x2d || isDigit b || b == 0x5b || b == 0x7b

theorem isStart_other {b : UInt8} (h : isStart b = true) :
    b < 0x80 ∧ isWhiteSpace b.toNat = false ∧ b.toNat ≠ 0x5d ∧ b.toNat ≠ 0x7d ∧ b.toNat ≠ 0x2c := by
  have hall : ∀ n < 256, isStart (UInt8.ofNat n) = true → UInt8.ofNat n < 0x80 ∧ isWhiteSpace n = false ∧
      n ≠ 0x5d ∧ n ≠ 0x7d ∧ n ≠ 0x2c := by decide +kernel
  have := hall b.toNat b.toNat_lt (by rwa [UInt8.ofNat_toNat])
  rwa [UInt8.ofNat_toNat] at this

/-- The parser `p` is where a value can begin, and goes on with the item that `p'` has on its stack. -/
structure Awaits (toDouble : Bool → Bytes → Except ErrorCode UInt64) (p p' : Parser) : Prop where
  clean : Clean p
  clean' : Clean p'
  skips : SkipsWhite p
  starts : ∀ b q rest, isStart b = true → tryParseValue p' b.toNat = some q →
    turn toDouble p [] (b :: rest) = ⟨q, [], rest, none⟩

theorem awaits_document {p : Parser} {stack : List Item} (hclean : Clean p) (hstack : p.stack = .document 0 :: stack) :
    Awaits toDouble p { p with stack := .document 1 :: stack } := by
  refine ⟨hclean, ⟨hclean.1, hclean.2, hclean.3, hclean.4, hclean.5⟩, by simp [SkipsWhite, hstack], ?_⟩
  intro b q rest hb htry
  obtain ⟨hascii, hwhite, -⟩ := isStart_other hb
  simp [turn, hstack, parseDocument, utf8Decode_ascii hascii, hwhite, htry]

theorem awaits_array {p : Parser} {stack : List Item} {n : Nat} {step : ArrayStep} (hclean : Clean p)
    (hstack : p.stack = .array n step :: stack) (hstep : step ≠ .parseSep) :
    Awaits toDouble p { p with stack := .array (n + 1) .parseSep :: stack } := by
  refine ⟨hclean, ⟨hclean.1, hclean.2, hclean.3, hclean.4, hclean.5⟩, by simp [SkipsWhite, hstack], ?_⟩
  intro b q rest hb htry
  obtain ⟨hascii, hwhite, hclose, -, hcomma⟩ := isStart_other hb
  simp [turn, hstack, parseArray, withCodepoint_ascii hclean.reader hascii, arrayCodepoint, hwhite, hclose, hcomma, hstep,
    htry, Act.accept]

theorem awaits_object {p : Parser} {stack : List Item} {n : Nat} (hclean : Clean p)
    (hstack : p.stack = .object n .parseValue :: stack) :
    Awaits toDouble p { p with stack := .object n .parseSep :: stack } := by
  refine ⟨hclean, ⟨hclean.1, hclean.2, hclean.3, hclean.4, hclean.5⟩, by simp [SkipsWhite, hstack], ?_⟩
  intro b q rest hb htry
  obtain ⟨hascii, hwhite, -, hclose, hcomma⟩ := isStart_other hb
  by_cases hquote : b.toNat = 0x22
  · -- the escape context is not reset here, but nothing is left in it
    have hq : q = { p with stack := .string :: .object n .parseSep :: stack } := by
      rw [hquote] at htry
      simp only [tryParseValue] at htry
      simpa [← hclean.esc] using htry.symm
    simp [turn, hstack, parseObject, withCodepoint_ascii hclean.reader hascii, objectCodepoint, hquote, hq, Act.accept,
      isWhiteSpace]
  · simp [turn, hstack, parseObject, withCodepoint_ascii hclean.reader hascii, objectCodepoint, hwhite, hclose, hcomma,
      hquote, htry, Act.accept]

/-- The parser behind a value. -/
def Parser.pushed (p : Parser) (v : Value) : Parser := { p with handler := p.handler.pushValue v }

theorem Awaits.run_start {p p' q : Parser} {b : UInt8} (h : Awaits toDouble p p') (hb : isStart b = true)
    (htry : tryParseValue p' b.toNat = some q) (rest : Bytes) : run toDouble p (b :: rest) = run toDouble q rest := by
  rw [run_step h.clean.reader h.clean.state (List.cons_ne_nil _ _) (h.starts b q rest hb htry), flush_nil]

/-! ## Literals -/

/-- The rest of a literal. -/
theorem run_constText {p : Parser} {desired : Bytes} {v : Value} {item : Nat → Item} {stack : List Item} {parsed : Nat}
    (hreader : p.reader = []) (hstate : p.state = .parsing) (hparsed : parsed < desired.length)
    (hturn : ∀ (q : Parser) k jtext, q.stack = item k :: stack → turn toDouble q [] jtext =
      parseConstText desired v item k q stack jtext)
    (hstack : p.stack = item parsed :: stack) (rest : Bytes) :
    run toDouble p (desired.drop parsed ++ rest) =
      run toDouble { p with handler := p.handler.pushValue v, stack } rest := by
  induction hn : desired.length - parsed generalizing p parsed with
  | zero => omega
  | succ n ih =>
      rw [List.drop_eq_getElem_cons hparsed, List.cons_append]
      by_cases hlast : parsed + 1 = desired.length
      · have hnil : desired.drop (parsed + 1) = [] := List.drop_of_length_le (by omega)
        have ht : turn toDouble p [] (desired[parsed] :: (desired.drop (parsed + 1) ++ rest)) =
            ⟨{ p with handler := p.handler.pushValue v, stack }, [], rest, none⟩ := by
          rw [hturn p parsed _ hstack, parseConstText, if_neg (by simp [hparsed]), if_pos hlast, hnil]
          rfl
        rw [run_step hreader hstate (List.cons_ne_nil _ _) ht, flush_nil]
      · have ht : turn toDouble p [] (desired[parsed] :: (desired.drop (parsed + 1) ++ rest)) =
            ⟨{ p with stack := item (parsed + 1) :: stack }, [], desired.drop (parsed + 1) ++ rest, none⟩ := by
          rw [hturn p parsed _ hstack, parseConstText, if_neg (by simp [hparsed]), if_neg hlast]
        rw [run_step hreader hstate (List.cons_ne_nil _ _) ht, flush_nil]
        exact @ih { p with stack := item (parsed + 1) :: stack } (parsed + 1) hreader hstate (by omega) rfl (by omega)

theorem Awaits.run_null {p p' : Parser} (h : Awaits toDouble p p') (rest : Bytes) :
    run toDouble p (ascii "null" ++ rest) = run toDouble (p'.pushed .null) rest := by
  have hstart := @Awaits.run_start toDouble p p' _ 0x6e h (by decide) rfl (ascii "ull" ++ rest)
  have hconst := @run_constText toDouble { p' with stack := .null 1 :: p'.stack } (ascii "null") .null .null p'.stack 1
    h.clean'.reader h.clean'.state (by decide) (fun q k jtext hq => by simp only [turn, hq]) rfl rest
  exact hstart.trans hconst

theorem Awaits.run_bool {p p' : Parser} (h : Awaits toDouble p p') (b : Bool) (rest : Bytes) :
    run toDouble p ((if b then ascii "true" else ascii "false") ++ rest) = run toDouble (p'.pushed (.bool b)) rest := by
  cases b with
  | true =>
      have hstart := @Awaits.run_start toDouble p p' _ 0x74 h (by decide) rfl (ascii "rue" ++ rest)
      have hconst := @run_constText toDouble { p' with stack := .bool true 1 :: p'.stack } (ascii "true") (.bool true)
        (.bool true) p'.stack 1 h.clean'.reader h.clean'.state (by decide) (fun q k jtext hq => by simp [turn, hq]) rfl rest
      exact hstart.trans hconst
  | false =>
      have hstart := @Awaits.run_start toDouble p p' _ 0x66 h (by decide) rfl (ascii "alse" ++ rest)
      have hconst := @run_constText toDouble { p' with stack := .bool false 1 :: p'.stack } (ascii "false") (.bool false)
        (.bool false) p'.stack 1 h.clean'.reader h.clean'.state (by decide) (fun q k jtext hq => by simp [turn, hq]) rfl rest
      exact hstart.trans hconst

/-! ## Strings -/

theorem turn_inString {p : Parser} (h : InString p) :
    ∃ finish above, ∀ seen jtext, turn toDouble p seen jtext = parseStringWith finish above p seen jtext := by
  cases hstack : p.stack with
  | nil => simp [InString, hstack] at h
  | cons item stack =>
      cases item with
      | string => exact ⟨_, _, fun seen jtext => by simp only [turn, hstack]; rfl⟩
      | key parsedName =>
          cases parsedName with
          | true => simp [InString, hstack] at h
          | false => exact ⟨_, _, fun seen jtext => by simp only [turn, hstack]; rfl⟩
      | _ => simp [InString, hstack] at h

/-- The parser inside a string and outside of the escapes in it. -/
structure ReadsString (p : Parser) : Prop where
  inString : InString p
  reader : p.reader = []
  esc : p.esc = .none
  state : p.state = .parsing

theorem ReadsString.flush {p : Parser} (h : ReadsString p) (s : Bytes) : ReadsString (p.flush s) :=
  ⟨h.inString, h.reader, h.esc, h.state⟩

theorem flush_flush (p : Parser) (s t : Bytes) : (p.flush s).flush t = p.flush (s ++ t) := by
  simp [Parser.flush, ValueStack.pushChars]

/-- A code point that is not a quotation mark or a reverse solidus. -/
theorem ReadsString.run_codepoint {p : Parser} (h : ReadsString p) {cp : Nat} (hvalid : isValidCodepoint cp)
    (hquote : cp ≠ 0x22) (hsolidus : cp ≠ 0x5c) (rest : Bytes) :
    run toDouble p (utf8Encode cp ++ rest) = run toDouble (p.flush (utf8Encode cp)) rest := by
  obtain ⟨finish, above, hturn⟩ := @turn_inString toDouble p h.inString
  have hne : utf8Encode cp ++ rest ≠ [] := by
    intro hnil
    have := utf8Decode_utf8Encode hvalid rest
    rw [hnil] at this
    cases this
  have hp : ({ p with reader := [], esc := .none } : Parser) = p := by rw [← h.reader, ← h.esc]
  have ht : turn toDouble p [] (utf8Encode cp ++ rest) = ⟨p, utf8Encode cp, rest, none⟩ := by
    rw [hturn]
    simp [parseStringWith, h.reader, decode_utf8Encode hvalid, stringCodepoint, h.esc, hquote, hsolidus,
      StringTurn.deliver, hp]
  exact run_step h.reader h.state hne ht

/-- The reverse solidus that begins an escape. -/
theorem ReadsString.run_solidus {p : Parser} (h : ReadsString p) (rest : Bytes) :
    run toDouble p (0x5c :: rest) = run toDouble { p with esc := .wantEscape } rest := by
  obtain ⟨finish, above, hturn⟩ := @turn_inString toDouble p h.inString
  have hp : ({ p with reader := [], esc := .wantEscape } : Parser) = { p with esc := .wantEscape } := by rw [← h.reader]
  have ht : turn toDouble p [] (0x5c :: rest) = ⟨{ p with esc := .wantEscape }, [], rest, none⟩ := by
    rw [hturn]
    simp [parseStringWith, h.reader, decode_ascii (show (0x5c : UInt8) < 0x80 by decide), stringCodepoint, h.esc,
      StringTurn.deliver, hp]
  rw [run_step h.reader h.state (List.cons_ne_nil _ _) ht, flush_nil]

/-- A character of an escape. -/
theorem run_escape {p : Parser} {b : UInt8} {esc' : EscapeState} {result : Bytes} (hstring : InString p)
    (hreader : p.reader = []) (hstate : p.state = .parsing) (hesc : p.esc ≠ .none) (hb : b < 0x80)
    (hparse : parseJsonEscapeSequence b.toNat p.esc = (esc', .ok result)) (rest : Bytes) :
    run toDouble p (b :: rest) = run toDouble ({ p with esc := esc' }.flush result) rest := by
  obtain ⟨finish, above, hturn⟩ := @turn_inString toDouble p hstring
  have hp : ({ p with reader := [], esc := esc' } : Parser) = { p with esc := esc' } := by rw [← hreader]
  rcases eq_or_ne result [] with rfl | hresult
  · have ht : turn toDouble p [] (b :: rest) = ⟨{ p with esc := esc' }, [], rest, none⟩ := by
      rw [hturn]
      simp [parseStringWith, hreader, decode_ascii hb, stringCodepoint, hesc, hparse, StringTurn.deliver, hp]
    exact run_step hreader hstate (List.cons_ne_nil _ _) ht
  · have ht : turn toDouble p [] (b :: rest) = ⟨{ p with esc := esc' }.flush result, [], rest, none⟩ := by
      rw [hturn]
      simp [parseStringWith, hreader, decode_ascii hb, stringCodepoint, hesc, hparse, StringTurn.deliver, hresult,
        Parser.flush]
    rw [run_step hreader hstate (List.cons_ne_nil _ _) ht, flush_nil]

theorem isHexDigit_ascii {b : UInt8} (h : isHexDigit b.toNat = true) : b < 0x80 := by
  have hall : ∀ n < 256, isHexDigit n = true → UInt8.ofNat n < 0x80 := by decide +kernel
  have := hall b.toNat b.toNat_lt h
  rwa [UInt8.ofNat_toNat] at this

/-- The parser inside an escape. -/
structure ReadsEscape (p : Parser) (esc : EscapeState) : Prop where
  inString : InString p
  reader : p.reader = []
  esc : p.esc = esc
  state : p.state = .parsing

/-- Four digits, the last of which completes the sequence. -/
theorem ReadsEscape.run_hex {p : Parser} {hexBuff : Option Bytes} {digits : Bytes}
    (h : ReadsEscape p (.wantHexDigits hexBuff [])) (hdigits : IsHex4 digits) {esc' : EscapeState} {result : Bytes}
    (hlast : ∀ a b c d, digits = [a, b, c, d] →
      parseJsonEscapeSequence d.toNat (.wantHexDigits hexBuff [a, b, c]) = (esc', .ok result)) (rest : Bytes) :
    run toDouble p (digits ++ rest) = run toDouble ({ p with esc := esc' }.flush result) rest := by
  obtain ⟨hlen, hhex⟩ := hdigits
  match digits, hlen with
  | [a, b, c, d], _ =>
      have hone : ∀ (q : Parser) (ds : Bytes) x more, ReadsEscape q (.wantHexDigits hexBuff ds) → ds.length < 3 →
          isHexDigit x.toNat = true →
          run toDouble q (x :: more) = run toDouble { q with esc := .wantHexDigits hexBuff (ds ++ [x]) } more := by
        intro q ds x more hq hds hx
        have hparse : parseJsonEscapeSequence x.toNat q.esc = (.wantHexDigits hexBuff (ds ++ [x]), .ok []) := by
          simp [hq.esc, parseJsonEscapeSequence, hx, show ds.length + 1 < 4 by omega]
        rw [run_escape hq.inString hq.reader hq.state (by rw [hq.esc]; nofun) (isHexDigit_ascii hx) hparse, flush_nil]
      have ha := hhex a (by simp)
      have hb := hhex b (by simp)
      have hc := hhex c (by simp)
      have hd := hhex d (by simp)
      have hread : ∀ ds, ReadsEscape { p with esc := .wantHexDigits hexBuff ds } (.wantHexDigits hexBuff ds) :=
        fun ds => ⟨h.inString, h.reader, rfl, h.state⟩
      have h1 := hone p [] a (b :: c :: d :: rest) h (by simp) ha
      have h2 := hone _ [a] b (c :: d :: rest) (hread [a]) (by simp) hb
      have h3 := hone _ [a, b] c (d :: rest) (hread [a, b]) (by simp) hc
      have h4 := @run_escape toDouble { p with esc := .wantHexDigits hexBuff [a, b, c] } d _ _ h.inString h.reader h.state
        nofun (isHexDigit_ascii hd) (hlast a b c d rfl) rest
      exact h1.trans (h2.trans (h3.trans h4))

theorem isValidCodepoint_surrogate {n : Nat} (h : 0xd800 ≤ n ∧ n ≤ 0xdfff) : isValidCodepoint n = false := by
  simp [isValidCodepoint, isSurrogateCodepoint, h]

/-- `\u` and the digits of a code point that is no surrogate. -/
theorem ReadsString.run_unicode {p : Parser} (h : ReadsString p) {digits : Bytes} (hdigits : IsHex4 digits)
    (hvalid : isValidCodepoint (fromHex digits)) (rest : Bytes) :
    run toDouble p (0x5c :: 0x75 :: (digits ++ rest)) = run toDouble (p.flush (utf8Encode (fromHex digits))) rest := by
  have hu := @run_escape toDouble { p with esc := .wantEscape } 0x75 _ _ h.inString h.reader h.state nofun (by decide) rfl
    (digits ++ rest)
  have hread : ReadsEscape { p with esc := .wantHexDigits none [] } (.wantHexDigits none []) :=
    ⟨h.inString, h.reader, rfl, h.state⟩
  have hlast : ∀ a b c d, digits = [a, b, c, d] → parseJsonEscapeSequence d.toNat (.wantHexDigits none [a, b, c]) =
      (.none, .ok (utf8Encode (fromHex digits))) := by
    rintro a b c d rfl
    have hd : isHexDigit d.toNat = true := hdigits.2 d (by simp)
    have hne := utf8Encode_ne_nil (fromHex [a, b, c, d])
    simp [parseJsonEscapeSequence, hd, encodeUnicodeSequence, hvalid, hne]
  rw [h.run_solidus, hu, flush_nil, hread.run_hex hdigits hlast]
  rw [← h.esc]

/-- Both `\u` sequences of a surrogate pair. -/
theorem ReadsString.run_pair {p : Parser} (h : ReadsString p) {high low : Bytes} {cp : Nat} (hhigh : IsHex4 high)
    (hlow : IsHex4 low) (hrange : 0xd800 ≤ fromHex high ∧ fromHex high ≤ 0xdfff)
    (hpair : encodeUtf16Pairs high low = .ok (utf8Encode cp)) (rest : Bytes) :
    run toDouble p (0x5c :: 0x75 :: (high ++ 0x5c :: 0x75 :: (low ++ rest))) =
      run toDouble (p.flush (utf8Encode cp)) rest := by
  have hu := @run_escape toDouble { p with esc := .wantEscape } 0x75 _ _ h.inString h.reader h.state nofun (by decide) rfl
    (high ++ 0x5c :: 0x75 :: (low ++ rest))
  have hsolidus := @run_escape toDouble { p with esc := .wantReverseSolidus high } 0x5c _ _ h.inString h.reader h.state
    nofun (by decide) rfl (0x75 :: (low ++ rest))
  have hu' := @run_escape toDouble { p with esc := .wantU high } 0x75 _ _ h.inString h.reader h.state nofun (by decide) rfl
    (low ++ rest)
  have hread : ReadsEscape { p with esc := .wantHexDigits none [] } (.wantHexDigits none []) :=
    ⟨h.inString, h.reader, rfl, h.state⟩
  have hread' : ReadsEscape { p with esc := .wantHexDigits (some high) [] } (.wantHexDigits (some high) []) :=
    ⟨h.inString, h.reader, rfl, h.state⟩
  have hlastHigh : ∀ a b c d, high = [a, b, c, d] → parseJsonEscapeSequence d.toNat (.wantHexDigits none [a, b, c]) =
      (.wantReverseSolidus high, .ok []) := by
    rintro a b c d rfl
    have hd : isHexDigit d.toNat = true := hhigh.2 d (by simp)
    have hinvalid := isValidCodepoint_surrogate hrange
    simp [parseJsonEscapeSequence, hd, encodeUnicodeSequence, hinvalid]
  have hlastLow : ∀ a b c d, low = [a, b, c, d] →
      parseJsonEscapeSequence d.toNat (.wantHexDigits (some high) [a, b, c]) = (.none, .ok (utf8Encode cp)) := by
    rintro a b c d rfl
    have hd : isHexDigit d.toNat = true := hlow.2 d (by simp)
    simp [parseJsonEscapeSequence, hd, hpair]
  rw [h.run_solidus, hu, flush_nil, hread.run_hex hhigh hlastHigh, flush_nil, hsolidus, flush_nil, hu', flush_nil,
    hread'.run_hex hlow hlastLow]
  rw [← h.esc]

theorem ReadsString.run_char {p : Parser} (h : ReadsString p) {t : Bytes} {c : Char} (hc : CharText t c) (rest : Bytes) :
    run toDouble p (t ++ rest) = run toDouble (p.flush (String.utf8EncodeChar c)) rest := by
  cases hc with
  | unescaped hcontrol hquote hsolidus =>
      have hne : ∀ d : Char, c ≠ d → c.toNat ≠ d.toNat := fun d hd heq => hd (Char.toNat_inj.1 heq)
      rw [← utf8Encode_char]
      exact h.run_codepoint (isValidCodepoint_char c) (hne '"' hquote) (hne '\\' hsolidus) rest
  | @short b _ hmem =>
      have hall : ∀ e ∈ shortEscapes, e.1 < 0x80 ∧
          parseJsonEscapeSequence e.1.toNat .wantEscape = (.none, .ok (String.utf8EncodeChar e.2)) := by decide
      obtain ⟨hb, hparse⟩ := hall _ hmem
      have hescape := @run_escape toDouble { p with esc := .wantEscape } b _ _ h.inString h.reader h.state nofun hb hparse rest
      rw [List.cons_append, List.cons_append, List.nil_append, h.run_solidus, hescape, ← h.esc]
  | unicode hdigits hcode =>
      rw [← utf8Encode_char, ← hcode]
      exact h.run_unicode hdigits (hcode ▸ isValidCodepoint_char c) rest
  | @pair high low _ hhigh hlow hrange hcode =>
      have hpair : encodeUtf16Pairs high low = .ok (utf8Encode c.toNat) := by
        have hcp : fromHex high % 1024 * 1024 + fromHex low % 1024 + 0x10000 = c.toNat := by omega
        have hvalid := isValidCodepoint_char c
        simp only [encodeUtf16Pairs, utf16DecodePair, hcp]
        rw [if_neg (by omega), if_neg (by omega), if_neg (by omega), if_pos hvalid]
      rw [← utf8Encode_char]
      simpa using h.run_pair hhigh hlow ⟨hrange.1, by omega⟩ hpair rest

theorem ReadsString.run_chars {p : Parser} (h : ReadsString p) {t : Bytes} {s : List Char} (hs : StringText t s)
    (rest : Bytes) : run toDouble p (t ++ rest) = run toDouble (p.flush (utf8 s)) rest := by
  induction hs generalizing p with
  | nil => rw [List.nil_append, utf8, List.flatMap_nil, flush_nil]
  | @cons t ts c s hc hs ih =>
      rw [List.append_assoc, h.run_char hc, ih (h.flush _), flush_flush]
      rfl

/-! ## Quotation marks -/

theorem parseStringWith_quote {finish : ValueStack → Bytes → ValueStack} {above : List Item} {p : Parser}
    (h : ReadsString p) (rest : Bytes) :
    parseStringWith finish above p [] (0x22 :: rest) =
      ⟨{ p with handler := finish p.handler [], stack := above }, [], rest, none⟩ := by
  simp [parseStringWith, h.reader, decode_ascii (show (0x22 : UInt8) < 0x80 by decide), stringCodepoint, h.esc,
    StringTurn.deliver]

/-- The quotation mark that ends a string. -/
theorem ReadsString.run_endString {p : Parser} {stack : List Item} (h : ReadsString p) (hstack : p.stack = .string :: stack)
    (rest : Bytes) :
    run toDouble p (0x22 :: rest) = run toDouble { p with handler := p.handler.pushString [], stack } rest := by
  have ht : turn toDouble p [] (0x22 :: rest) = ⟨{ p with handler := p.handler.pushString [], stack }, [], rest, none⟩ := by
    simp only [turn, hstack]
    exact parseStringWith_quote h rest
  rw [run_step h.reader h.state (List.cons_ne_nil _ _) ht, flush_nil]

/-- The quotation mark that ends a key. -/
theorem ReadsString.run_endKey {p : Parser} {stack : List Item} (h : ReadsString p) (hstack : p.stack = .key false :: stack)
    (rest : Bytes) :
    run toDouble p (0x22 :: rest) =
      run toDouble { p with handler := p.handler.pushKey [], stack := .key true :: stack } rest := by
  have ht : turn toDouble p [] (0x22 :: rest) =
      ⟨{ p with handler := p.handler.pushKey [], stack := .key true :: stack }, [], rest, none⟩ := by
    simp only [turn, hstack]
    exact parseStringWith_quote h rest
  rw [run_step h.reader h.state (List.cons_ne_nil _ _) ht, flush_nil]

/-- A string, from what its characters are read as. -/
theorem Awaits.run_quoted {p p' : Parser} {t s : Bytes} (h : Awaits toDouble p p')
    (hchars : ∀ {p}, ReadsString p → ∀ rest, run toDouble p (t ++ rest) = run toDouble (p.flush s) rest) (rest : Bytes) :
    run toDouble p (0x22 :: (t ++ 0x22 :: rest)) = run toDouble (p'.pushed (.string s)) rest := by
  have hstart := @Awaits.run_start toDouble p p' _ 0x22 h (by decide) rfl (t ++ 0x22 :: rest)
  have hreads : ReadsString { p' with esc := .none, stack := .string :: p'.stack } :=
    ⟨trivial, h.clean'.reader, rfl, h.clean'.state⟩
  rw [hstart, hchars hreads, (hreads.flush s).run_endString rfl]
  simp [Parser.flush, Parser.pushed, ValueStack.pushChars, ValueStack.pushString, ValueStack.pushValue, h.clean'.chars,
    ← h.clean'.esc]

theorem Awaits.run_string {p p' : Parser} (h : Awaits toDouble p p') {t : Bytes} {s : List Char} (hs : StringText t s)
    (rest : Bytes) :
    run toDouble p (0x22 :: (t ++ 0x22 :: rest)) = run toDouble (p'.pushed (.string (utf8 s))) rest :=
  h.run_quoted (fun h rest => h.run_chars hs rest) rest

theorem run_colon {p : Parser} {stack : List Item} (hclean : Clean p) (hstack : p.stack = .key true :: stack)
    (rest : Bytes) : run toDouble p (0x3a :: rest) = run toDouble { p with stack } rest := by
  have ht : turn toDouble p [] (0x3a :: rest) = ⟨{ p with stack }, [], rest, none⟩ := by
    simp [turn, hstack, parseKey, withCodepoint_ascii hclean.reader (show (0x3a : UInt8) < 0x80 by decide), colonCodepoint,
      isWhiteSpace, Act.accept]
  rw [run_step hclean.reader hclean.state (List.cons_ne_nil _ _) ht, flush_nil]

/-- The parser behind a key and its colon. -/
def Parser.keyed (p : Parser) (key : Bytes) (stack : List Item) : Parser :=
  { p with handler := { p.handler with stack := .key key :: p.handler.stack }, stack }

theorem Clean.keyed {p : Parser} (h : Clean p) (key : Bytes) (stack : List Item) : Clean (p.keyed key stack) :=
  ⟨h.reader, h.esc, h.numberText, h.chars, h.state⟩

/-- The key of a member, from its opening quotation mark to the colon. -/
theorem run_key {p : Parser} {stack : List Item} {n : Nat} {step : ObjectStep} {k ws : Bytes} {key : List Char}
    (hclean : Clean p) (hstack : p.stack = .object n step :: stack) (hstep : step = .mayParseKey ∨ step = .mustParseKey)
    (hkey : StringText k key) (hws : WhiteSpace ws) (rest : Bytes) :
    run toDouble p (0x22 :: (k ++ 0x22 :: (ws ++ 0x3a :: rest))) =
      run toDouble (p.keyed (utf8 key) (.object (n + 1) .parseValue :: stack)) rest := by
  have hopen : turn toDouble p [] (0x22 :: (k ++ 0x22 :: (ws ++ 0x3a :: rest))) =
      ⟨{ p with stack := .key false :: .object (n + 1) .parseValue :: stack }, [], k ++ 0x22 :: (ws ++ 0x3a :: rest),
        none⟩ := by
    rcases hstep with rfl | rfl <;>
      simp [turn, hstack, parseObject, withCodepoint_ascii hclean.reader (show (0x22 : UInt8) < 0x80 by decide),
        objectCodepoint, isWhiteSpace, Act.accept]
  have hreads : ReadsString { p with stack := .key false :: .object (n + 1) .parseValue :: stack } :=
    ⟨trivial, hclean.reader, hclean.esc, hclean.state⟩
  have hname : run toDouble p (0x22 :: (k ++ 0x22 :: (ws ++ 0x3a :: rest))) =
      run toDouble (p.keyed (utf8 key) (.key true :: .object (n + 1) .parseValue :: stack)) (ws ++ 0x3a :: rest) := by
    rw [run_step hclean.reader hclean.state (List.cons_ne_nil _ _) hopen, flush_nil, hreads.run_chars hkey,
      (hreads.flush (utf8 key)).run_endKey rfl]
    simp [Parser.flush, Parser.keyed, ValueStack.pushChars, ValueStack.pushKey, hclean.chars]
  have hcolon := hclean.keyed (utf8 key) (.key true :: .object (n + 1) .parseValue :: stack)
  rw [hname, run_white hcolon trivial hws, run_colon hcolon rfl]
  rfl

end Rad.Json
