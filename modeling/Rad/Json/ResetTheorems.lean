import Rad.Json.Lemmas.Run
import Rad.Json.Lemmas.Tokens
import Rad.Json.Parser

/-!
# Resetting a parser

`reset` leaves the escape, the reader and the value stack as they are. A parser is like a new one behind it exactly when
nothing is left in them.
-/

namespace Rad.Json

/-! ## The calls of a parser (include/rad/json/parser.h)

What `parser` and `stream_parser` offer, with what the caller sees of each call.
-/

inductive Call where
  /-- `write_some`, with `more` for a `stream_parser`. -/
  | write (more : Bool) (data : Bytes)
  | finish
  | release
  | reset

/-- What a call gives; `release` gives no value where the behaviour of the code is not defined. -/
inductive Answer where
  | written (n : Nat) (ec : Option ErrorCode)
  | finished (ec : Option ErrorCode)
  | released (v : Option Value)
  | reset

section

variable (toDouble : Bool → Bytes → Except ErrorCode UInt64)

def Parser.call (p : Parser) : Call → Parser × Answer
  | .write more data =>
    let r := p.writeSome toDouble more data
    (r.1, .written r.2.1 r.2.2)
  | .finish =>
    let r := p.finish toDouble
    (r.1, .finished r.2)
  | .release =>
    match p.release with
    | some (v, p) => (p, .released (some v))
    | none => (p, .released none)
  | .reset => (p.reset, .reset)

/-- The parser behind calls one after the other. -/
def Parser.after (p : Parser) (calls : List Call) : Parser := calls.foldl (fun p c => (p.call toDouble c).1) p

/-- What the caller sees of calls one after the other. -/
def Parser.answers (p : Parser) : List Call → List Answer
  | [] => []
  | c :: calls => (p.call toDouble c).2 :: Parser.answers (p.call toDouble c).1 calls

end

variable {toDouble : Bool → Bytes → Except ErrorCode UInt64}

/-- Nothing is left of an escape, of the bytes of a character and of the values. -/
structure Parser.LeftNothing (p : Parser) : Prop where
  esc : p.esc = .none
  reader : p.reader = []
  chars : p.handler.stackChars = []
  values : p.handler.stack = []

theorem reset_of_leftNothing {p : Parser} (h : p.LeftNothing) : p.reset = {} := by
  obtain ⟨⟨chars, values⟩, stack, state, numberText, esc, reader, lastEc⟩ := p
  obtain ⟨rfl, rfl, rfl, rfl⟩ := h
  rfl

/-! ## The reader -/

theorem parseText_readerOk {p : Parser} {t : Bytes} (hreader : ReaderOk p.reader) (hlastEc : p.lastEc = none) :
    ReaderOk (parseText toDouble p t).parser.reader := by
  have h := (@run_ends toDouble p t hreader hlastEc).1
  rwa [← parseText_flushed hreader] at h

theorem validateAndReportNumber_reader (p : Parser) (pointPos ePos : Nat) (hasMinus : Bool) (stack : List Item) :
    (validateAndReportNumber toDouble p pointPos ePos hasMinus stack).1.reader = p.reader := by
  rw [validateAndReportNumber]
  split <;> rfl

theorem finish_reader (p : Parser) : (p.finish toDouble).1.reader = p.reader := by
  rw [Parser.finish]
  split
  · rfl
  split
  · rfl
  split
  · rfl
  split
  · split <;> rfl
  · split
    · dsimp only
      split
      · exact validateAndReportNumber_reader ..
      · exact validateAndReportNumber_reader ..
    · rfl
  · rfl

theorem start_reader (p : Parser) : p.start.reader = p.reader ∧ p.start.lastEc = p.lastEc := by
  rw [Parser.start]
  split <;> exact ⟨rfl, rfl⟩

theorem writeSome_readerOk {p : Parser} (more : Bool) (data : Bytes) (hreader : ReaderOk p.reader) :
    ReaderOk (p.writeSome toDouble more data).1.reader := by
  rw [Parser.writeSome]
  split
  · exact hreader
  rename_i hlastEc
  split
  · exact hreader
  split
  · exact hreader
  obtain ⟨hstart, hlastEc'⟩ := start_reader p
  have hok : ReaderOk (parseText toDouble p.start data).parser.reader :=
    parseText_readerOk (by rwa [hstart]) (hlastEc'.trans hlastEc)
  have hr : ∀ ec : Option ErrorCode, ReaderOk
      (if ec = none ∧ !more ∧ (parseText toDouble p.start data).parser.state ≠ .done then
        (parseText toDouble p.start data).parser.finish toDouble
      else ((parseText toDouble p.start data).parser, ec)).1.reader := by
    intro ec
    split
    · rw [finish_reader]
      exact hok
    · exact hok
  dsimp only
  split
  · exact hr _
  · exact hr _

/-- The bytes that are cached are always the beginning of a character. -/
theorem after_readerOk {p : Parser} {calls : List Call} (hreader : ReaderOk p.reader) :
    ReaderOk (p.after toDouble calls).reader := by
  induction calls generalizing p with
  | nil => exact hreader
  | cons c calls ih =>
      refine ih ?_
      cases c with
      | write more data => exact writeSome_readerOk more data hreader
      | finish =>
          have hsame : (p.finish toDouble).1.reader = p.reader := finish_reader p
          exact hsame ▸ hreader
      | release =>
          simp only [Parser.call, Parser.release]
          cases p.handler.release with
          | none => exact hreader
          | some r => exact hreader
      | reset => exact hreader

/-! ## The first text behind a reset -/

/-- The parser behind a reset. -/
def Parser.leftOver (handler : ValueStack) (esc : EscapeState) (reader : Bytes) : Parser := { handler, esc, reader }

section

variable {handler : ValueStack} {esc : EscapeState} {reader t : Bytes} {q : Parser}

theorem leftOver_fails {e : ErrorCode} (hreader : ReaderOk reader) (he : ∀ c, e ≠ .errc c)
    (h : (run toDouble (Parser.leftOver handler esc reader).start t).ec = some e) :
    ((Parser.leftOver handler esc reader).writeSome toDouble false t).2.2 = some e := by
  have hflushed := @parseText_flushed toDouble (Parser.leftOver handler esc reader).start t hreader
  have hec : (parseText toDouble (Parser.leftOver handler esc reader).start t).ec = some e := by
    rw [← flushed_ec, hflushed, h]
  have hne : some e ≠ some (.errc .noBufferSpace) := fun h => he _ (Option.some.inj h)
  have hstack : (Parser.leftOver handler esc reader).start.stack ≠ [] := nofun
  have hstate : (Parser.leftOver handler esc reader).state ≠ .done := nofun
  rw [Parser.writeSome]
  simp only [show (Parser.leftOver handler esc reader).lastEc = none from rfl, if_neg hstate, if_neg hstack, hec, hne,
    decide_false, Bool.and_false, Bool.false_and, Bool.false_eq_true, if_false, reduceCtorEq, false_and]

theorem leftOver_reads (h : run toDouble (Parser.leftOver handler .none []).start t = ⟨q, [], [], none⟩)
    (hlastEc : q.lastEc = none) (hstate : q.state = .parsing) (hreader : q.reader = []) (hstack : q.stack = [.document 1]) :
    (Parser.leftOver handler .none []).writeSome toDouble false t =
      ({ q with stack := [], state := .done }, t.length, none) := by
  have htext := @parseText_eq_run toDouble (Parser.leftOver handler .none []).start t readerOk_nil (by rw [h])
  have hstack' : (Parser.leftOver handler .none []).start.stack ≠ [] := nofun
  have hstate' : (Parser.leftOver handler .none []).state ≠ .done := nofun
  rw [Parser.writeSome]
  simp only [show (Parser.leftOver handler .none []).lastEc = none from rfl, if_neg hstate', if_neg hstack', htext, h]
  simp [hstate, Parser.finish, hlastEc, hreader, hstack]

/-- The parser behind a reset, once it is started. -/
def Parser.leftOverAt (handler : ValueStack) (esc : EscapeState) (reader : Bytes) (stack : List Item) : Parser :=
  { handler, esc, reader, stack, state := .parsing }

theorem leftOver_start : (Parser.leftOver handler esc reader).start = Parser.leftOverAt handler esc reader [.document 0] :=
  rfl

theorem parsing_ne_done : ParserState.parsing ≠ .done := nofun

/-- The document is read without the bytes that are cached. -/
theorem turn_document {b : UInt8} (hb : b < 0x80) {item : Item} (hwhite : isWhiteSpace b.toNat = false)
    (htry : ∀ p, tryParseValue p b.toNat = some { p with stack := item :: p.stack }) :
    turn toDouble (Parser.leftOverAt handler esc reader [.document 0]) [] (b :: t) =
      ⟨Parser.leftOverAt handler esc reader [item, .document 1], [], t, none⟩ := by
  simp [turn, Parser.leftOverAt, parseDocument, utf8Decode_ascii hb, hwhite, htry]

/-- Behind bytes that are cached there is no `]`. -/
theorem leftOver_reader (hreader : ReaderOk reader) (hne : reader ≠ []) :
    ((Parser.leftOver handler esc reader).writeSome toDouble false (ascii "[]")).2.2 = some .inputError := by
  have hbegun := hreader.resolve_left hne
  have hdecode : decode reader [0x5d] = ⟨reader, [], .error .illegalByteSequence, []⟩ := by
    have hlen : 0 < utf8SequenceSize (reader.headD 0) - reader.length := Nat.sub_pos_of_lt hbegun.1
    have htake : [0x5d].take (utf8SequenceSize (reader.headD 0) - reader.length) = [(0x5d : UInt8)] :=
      List.take_of_length_le hlen
    have hcont : isUtf8ContinuationByte 0x5d = false := by decide
    rw [decode, if_pos hne, decodeCached, htake]
    simp [cacheBytes, hcont]
  have hopen := @turn_document toDouble handler esc reader [0x5d] 0x5b (by decide) (.array 0 .mayParseValue) rfl
    fun p => rfl
  have hclose : eagerTurn toDouble (Parser.leftOverAt handler esc reader [.array 0 .mayParseValue, .document 1]) [0x5d] =
      ⟨Parser.leftOverAt handler esc reader [.array 0 .mayParseValue, .document 1], [], [], some .inputError⟩ := by
    simp [eagerTurn, turn, parseArray, withCodepoint, Parser.leftOverAt, hdecode, Turn.flushed]
  have heager : eagerTurn toDouble (Parser.leftOverAt handler esc reader [.document 0]) [0x5b, 0x5d] = _ :=
    congrArg Turn.flushed hopen
  refine leftOver_fails hreader (by simp) ?_
  rw [leftOver_start, show ascii "[]" = [0x5b, 0x5d] from rfl,
    run_next hreader (List.cons_ne_nil _ _) parsing_ne_done (by rw [heager]; rfl), heager, flushed_rest, Turn.flushed,
    flush_nil, run_fails (List.cons_ne_nil _ _) parsing_ne_done (by rw [hclose]; simp), hclose]

/-- No escape goes on with an `x`. -/
theorem escape_x (h : esc ≠ .none) :
    ∃ e, parseJsonEscapeSequence 0x78 esc = (esc, .error e) ∧ (∀ c, e ≠ .errc c) ∧ e ≠ .incomplete := by
  cases esc with
  | none => exact absurd rfl h
  | wantEscape => exact ⟨.invalidEscape, rfl, nofun, nofun⟩
  | wantHexDigits hexBuff digits => exact ⟨.expectedHexDigit, rfl, nofun, nofun⟩
  | wantReverseSolidus hexBuff => exact ⟨.illegalLeadingSurrogate, rfl, nofun, nofun⟩
  | wantU hexBuff => exact ⟨.expectedUtf16Escape, rfl, nofun, nofun⟩

/-- In a key, for which nothing is done about an escape. -/
theorem leftOver_esc (h : esc ≠ .none) :
    ∃ e, ((Parser.leftOver handler esc []).writeSome toDouble false (ascii "\x7b\"x")).2.2 = some e ∧ e ≠ .incomplete := by
  obtain ⟨e, he, herrc, hincomplete⟩ := escape_x h
  refine ⟨e, leftOver_fails readerOk_nil herrc ?_, hincomplete⟩
  have hopen := @turn_document toDouble handler esc [] [0x22, 0x78] 0x7b (by decide) (.object 0 .mayParseKey) rfl
    fun p => rfl
  have hkey : turn toDouble (Parser.leftOverAt handler esc [] [.object 0 .mayParseKey, .document 1]) [] [0x22, 0x78] =
      ⟨Parser.leftOverAt handler esc [] [.key false, .object 1 .parseValue, .document 1], [], [0x78], none⟩ := by
    simp [turn, Parser.leftOverAt, parseObject, withCodepoint, decode_ascii, isWhiteSpace, objectCodepoint, Act.accept]
  have hx : (eagerTurn toDouble (Parser.leftOverAt handler esc [] [.key false, .object 1 .parseValue, .document 1])
      [0x78]).ec = some e := by
    simp [eagerTurn, turn, parseKey, parseStringWith, Parser.leftOverAt, decode_ascii, stringCodepoint, h, he,
      StringTurn.deliver]
  rw [leftOver_start, show ascii "\x7b\"x" = [0x7b, 0x22, 0x78] from rfl, run_step rfl rfl (List.cons_ne_nil _ _) hopen, flush_nil,
    run_step rfl rfl (List.cons_ne_nil _ _) hkey, flush_nil,
    run_fails (List.cons_ne_nil _ _) parsing_ne_done (by rw [hx]; simp), hx]

theorem leftOver_true :
    (Parser.leftOver handler .none []).writeSome toDouble false (ascii "true") =
      ({ Parser.leftOver (handler.pushValue (.bool true)) .none [] with state := .done }, 4, none) := by
  refine @leftOver_reads toDouble handler _ (Parser.leftOverAt (handler.pushValue (.bool true)) .none [] [.document 1]) ?_ rfl rfl
    rfl rfl
  have hopen := @turn_document toDouble handler .none [] (ascii "rue") 0x74 (by decide) (.bool true 1) rfl fun p => rfl
  have hconst := @run_constText toDouble (Parser.leftOverAt handler .none [] [.bool true 1, .document 1]) (ascii "true")
    (.bool true) (.bool true) [.document 1] 1 rfl rfl (by decide) (fun q k jtext hq => by simp [turn, hq]) rfl []
  rw [leftOver_start, show ascii "true" = 0x74 :: ascii "rue" from rfl, run_step rfl rfl (List.cons_ne_nil _ _) hopen, flush_nil]
  exact hconst.trans (run_stop (.inl rfl))

theorem leftOver_string :
    (Parser.leftOver handler .none []).writeSome toDouble false (ascii "\"\"") =
      ({ Parser.leftOver (handler.pushString []) .none [] with state := .done }, 2, none) := by
  refine @leftOver_reads toDouble handler _ (Parser.leftOverAt (handler.pushString []) .none [] [.document 1]) ?_ rfl rfl rfl
    rfl
  have hopen : turn toDouble (Parser.leftOverAt handler .none [] [.document 0]) [] [0x22, 0x22] =
      ⟨Parser.leftOverAt handler .none [] [.string, .document 1], [], [0x22], none⟩ := by
    simp [turn, Parser.leftOverAt, parseDocument, utf8Decode_ascii, isWhiteSpace, tryParseValue]
  have hreads : ReadsString (Parser.leftOverAt handler .none [] [.string, .document 1]) := ⟨trivial, rfl, rfl, rfl⟩
  rw [leftOver_start, show ascii "\"\"" = [0x22, 0x22] from rfl, run_step rfl rfl (List.cons_ne_nil _ _) hopen, flush_nil,
    hreads.run_endString rfl]
  exact run_stop (.inl rfl)

theorem call_release {p p' : Parser} (h : (p.call toDouble .release).2 = (p'.call toDouble .release).2) :
    p.release.map (·.1) = p'.release.map (·.1) := by
  simp only [Parser.call] at h
  cases hp : p.release <;> cases hp' : p'.release <;> simp_all

/-- Texts that tell a parser apart from a new one. -/
theorem leftNothing_of_answers (hreader : ReaderOk reader)
    (h : ∀ later, (Parser.leftOver handler esc reader).answers toDouble later = ({} : Parser).answers toDouble later) :
    (Parser.leftOver handler esc reader).LeftNothing := by
  have hwrite : ∀ t, ((Parser.leftOver handler esc reader).writeSome toDouble false t).2.2 =
      (({} : Parser).writeSome toDouble false t).2.2 := by
    intro t
    have := h [.write false t]
    simp only [Parser.answers, Parser.call, List.cons.injEq, Answer.written.injEq, and_true] at this
    exact this.2
  have hrelease : ∀ t,
      ((Parser.leftOver handler esc reader).writeSome toDouble false t).1.release.map (·.1) =
        (({} : Parser).writeSome toDouble false t).1.release.map (·.1) := by
    intro t
    have := h [.write false t, .release]
    simp only [Parser.answers, List.cons.injEq, and_true] at this
    exact call_release this.2
  have hreader' : reader = [] := by
    by_contra hne
    have hsame := hwrite (ascii "[]")
    have hfresh : (({} : Parser).writeSome toDouble false (ascii "[]")).2.2 = none := rfl
    rw [leftOver_reader hreader hne, hfresh] at hsame
    cases hsame
  subst hreader'
  have hesc : esc = .none := by
    by_contra hne
    obtain ⟨e, he, hincomplete⟩ := @leftOver_esc toDouble handler esc hne
    have hsame := hwrite (ascii "\x7b\"x")
    have hfresh : (({} : Parser).writeSome toDouble false (ascii "\x7b\"x")).2.2 = some .incomplete := rfl
    rw [he, hfresh] at hsame
    exact hincomplete (Option.some.inj hsame)
  subst hesc
  have hfresh : ({} : Parser) = Parser.leftOver {} .none [] := rfl
  have htrue := hrelease (ascii "true")
  have hstring := hrelease (ascii "\"\"")
  rw [hfresh, leftOver_true, leftOver_true] at htrue
  rw [hfresh, leftOver_string, leftOver_string] at hstring
  obtain ⟨chars, values⟩ := handler
  have hvalues : values = [] := by
    by_contra hne
    -- the value at the front is an old one, and is given out for both of the texts
    obtain ⟨item, items, rfl⟩ := List.exists_cons_of_ne_nil hne
    simp only [Parser.release, ValueStack.release, Parser.leftOver, ValueStack.pushValue, ValueStack.pushString,
      List.getLast?_cons_cons, List.getLast?_singleton] at htrue hstring
    cases hfront : (item :: items).getLast? with
    | none => simp [hfront] at htrue
    | some front =>
        cases front with
        | key s => simp [hfront] at htrue
        | value v => simp_all
  subst hvalues
  simp [Parser.release, ValueStack.release, Parser.leftOver, ValueStack.pushString] at hstring
  exact ⟨rfl, rfl, hstring, rfl⟩

end

/-- Behind a reset a parser is like a new one, whatever it is called with, exactly when nothing is left over in it. -/
theorem reset_like_new (before : List Call) :
    (∀ later, (({} : Parser).after toDouble before).reset.answers toDouble later = ({} : Parser).answers toDouble later) ↔
      (({} : Parser).after toDouble before).LeftNothing := by
  constructor
  · intro h
    have hleft := leftNothing_of_answers (after_readerOk readerOk_nil) h
    exact ⟨hleft.esc, hleft.reader, hleft.chars, hleft.values⟩
  · intro h later
    rw [reset_of_leftNothing h]

/-- An escape that is not over is still there behind the reset. -/
theorem escape_survives_reset :
    let p := ({} : Parser).after (fun _ _ => .ok 0) [.write true (ascii "\"\\")]
    p.reset.answers (fun _ _ => .ok 0) [.write false (ascii "\x7b\"x\":1\x7d")] ≠
      ({} : Parser).answers (fun _ _ => .ok 0) [.write false (ascii "\x7b\"x\":1\x7d")] := by
  intro p h
  have hnew : ({} : Parser).answers (fun _ _ => .ok 0) [.write false (ascii "\x7b\"x\":1\x7d")] = [.written 7 none] := rfl
  have hreset : p.reset.answers (fun _ _ => .ok 0) [.write false (ascii "\x7b\"x\":1\x7d")] =
      [.written 3 (some .invalidEscape)] := rfl
  rw [hnew, hreset] at h
  cases h

end Rad.Json
