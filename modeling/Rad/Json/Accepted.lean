import Rad.Json.ChunkTheorems
import Rad.Json.Lemmas.Numbers

/-!
# Accepted texts

In the middle of a text that is accepted the parser makes no error, it is in a string where the scanner is, and it begins a
number where a number begins.
-/

namespace Rad.Json

variable {toDouble : Bool → Bytes → Except ErrorCode UInt64}

/-! ## Inside an accepted text -/

section

variable {p : Parser} {front post t : Bytes} {s : Lex} {v : Value}

/-- A parser that finishes without an error is not within a string. -/
theorem Within.outcome_fails (h : Within p) (hlastEc : p.lastEc = none) (hstate : p.state = .parsing) :
    p.outcome toDouble ≠ .ok v := by
  have hstring := h.inString
  rw [InString] at hstring
  have hfinish : p.finish toDouble = (p.failWith .incomplete, some .incomplete) := by
    rw [Parser.finish, hlastEc]
    dsimp only
    rw [if_neg (by rw [hstate]; simp)]
    split
    · rfl
    · cases hstack : p.stack with
      | nil => rfl
      | cons item stack =>
          rw [hstack] at hstring
          cases item with
          | string => rfl
          | key parsedName => rfl
          | _ => exact hstring.elim
  rw [Parser.outcome, hfinish]
  simp

/-- Within a string there is a turn that makes no error. -/
theorem Within.turn_of_result (h : Within p) (hlastEc : p.lastEc = none) (hstate : p.state = .parsing)
    (hresult : p.result toDouble t = .ok v) :
    t ≠ [] ∧ ∃ finish above, (parseStringWith finish above p [] t).ec = none := by
  have hne : t ≠ [] := by
    rintro rfl
    rw [result_nil] at hresult
    exact h.outcome_fails hlastEc hstate hresult
  refine ⟨hne, ?_⟩
  obtain ⟨finish, above, -, hturn⟩ := @Within.turn_eq toDouble p h
  refine ⟨finish, above, ?_⟩
  by_contra hec
  rw [← hturn p rfl] at hec
  have hfails := run_fails hne (by rw [hstate]; nofun) hec
  rw [result_error (by rwa [hfails])] at hresult
  cases hresult

theorem lexOf_ne_outside (esc : EscapeState) (plain : Bool) : lexOf esc plain ≠ .outside := by cases esc <;> nofun

/-- Where a parser is that accepts what is left of the text. -/
theorem LexOk.place (h : LexOk p [] s) (hlastEc : p.lastEc = none) (hstate : p.state = .parsing)
    (hscan : s = .outside ∨ ∃ plain, s = .text plain) (hresult : p.result toDouble t = .ok v) :
    p.reader = [] ∧ ((s = .outside ∧ Between p) ∨ (s ≠ .outside ∧ Within p)) := by
  cases h with
  | outside h => exact ⟨h.reader, .inl ⟨rfl, h⟩⟩
  | within h hreader => exact ⟨hreader, .inr ⟨lexOf_ne_outside _ _, h⟩⟩
  | carried h =>
      rcases hscan with hscan | ⟨plain, hscan⟩ <;> cases hscan
  | stuck h hesc hsome =>
      obtain ⟨hne, finish, above, hec⟩ := h.turn_of_result hlastEc hstate hresult
      exact absurd hec (h.stuck_fails hesc hsome hne)

theorem scan_white {ws : Bytes} (h : ws.dropWhile (fun b => isWhiteSpace b.toNat) = []) : Lex.outside.scan ws = .outside := by
  rw [List.dropWhile_eq_nil_iff] at h
  induction ws with
  | nil => rfl
  | cons b ws ih =>
      obtain ⟨hb, hws⟩ := List.forall_mem_cons.1 h
      have hquote : b ≠ 0x22 := by
        rintro rfl
        exact absurd hb (by decide)
      rw [scan_cons, Lex.step, if_neg hquote, ih hws]

/-- Between two code points of an accepted text: the document is over there, or the parser goes on where the scanner is. -/
theorem result_front (h : LexOk p [] s) (hlastEc : p.lastEc = none) (hstate : p.state = .parsing)
    (hscan : s.scan front = .outside ∨ ∃ plain, s.scan front = .text plain)
    (hresult : p.result toDouble (front ++ post) = .ok v) :
    (run toDouble p front).ec = none ∧ (run toDouble p front).parser.lastEc = none ∧
      (run toDouble p front).parser.result toDouble post = .ok v ∧
      (((run toDouble p front).parser.state = .done ∧ s.scan front = .outside) ∨
        ((run toDouble p front).parser.state = .parsing ∧ (run toDouble p front).rest = [] ∧
          (run toDouble p front).parser.reader = [] ∧
          ((s.scan front = .outside ∧ Between (run toDouble p front).parser) ∨
            (s.scan front ≠ .outside ∧ Within (run toDouble p front).parser)))) := by
  obtain ⟨-, hlastEc', hends, hstate'⟩ := @run_ends toDouble p front h.readerOk hlastEc
  rw [hstate] at hstate'
  have hstart : p.state ≠ .done := by rw [hstate]; simp
  have hcut : (s.scan front).cut = .outside ∨ ∃ plain, (s.scan front).cut = .text plain := by
    rcases hscan with hscan | ⟨plain, hscan⟩
    · exact .inl (by rw [hscan]; rfl)
    · exact .inr ⟨false, by rw [hscan]; rfl⟩
  have hcutOutside : (s.scan front).cut = .outside ↔ s.scan front = .outside := by
    rcases hscan with hscan | ⟨plain, hscan⟩ <;> simp [hscan, Lex.cut]
  by_cases hec : (run toDouble p front).ec = none
  · have hagain := result_append h.readerOk hlastEc hec (by rw [hresult]; simp)
    have htext := parseText_eq_run h.readerOk hec
    obtain ⟨used, hused, hlex⟩ := (@parseText_lex toDouble p front s h hstart).1 (htext ▸ hec)
    rw [htext] at hused hlex
    refine ⟨hec, hlastEc', hagain ▸ hresult, ?_⟩
    rcases hlex with ⟨hdone, houtside⟩ | ⟨hdone, hlex⟩
    · -- behind the value there is white space only
      refine .inl ⟨hdone, ?_⟩
      have hrun := run_append h.readerOk hec post
      rw [run_stop (.inr hdone)] at hrun
      rw [result_of_none (by rw [hrun]), hrun] at hresult
      split at hresult
      · rename_i hwhite
        rw [hused, scan_append, houtside, scan_white (dropWhile_append_eq_nil.1 hwhite).1]
      · cases hresult
    · have hparsing := hstate'.resolve_right hdone
      have hrest := (hends hec).resolve_right hdone
      rw [hrest, List.append_nil] at hused
      subst hused
      obtain ⟨hreader, hplace⟩ := hlex.place hlastEc' hparsing hcut (hagain ▸ hresult)
      rw [ne_eq, hcutOutside] at hplace
      exact .inr ⟨hparsing, hrest, hreader, hplace⟩
  · -- a text that ends inside a character does not end here
    exfalso
    have hwaits : Waits (run toDouble p front) := by
      by_contra hwaits
      exact result_fails h hstate hec hwaits post hresult
    have hflushed := @parseText_flushed toDouble p front h.readerOk
    have hwaits' : Waits (parseText toDouble p front) := by rwa [← hflushed, waits_flushed] at hwaits
    obtain ⟨hseen, hlex⟩ := (@parseText_lex toDouble p front s h hstart).2 hwaits'
    have hnil : (parseText toDouble p front).seen = [] := by
      refine hseen ?_
      rcases hscan with hscan | ⟨plain, hscan⟩ <;> rw [hscan] <;> rfl
    replace hlex := hlex hnil
    have hsame : (parseText toDouble p front).parser = (run toDouble p front).parser := by
      rw [← hflushed, Turn.flushed, hnil, flush_nil]
    rw [hsame] at hlex
    obtain ⟨q, rest, -, -, -, hqstate, hnext, -⟩ := run_waits h hwaits
    have hparsing : (run toDouble p front).parser.state = .parsing := by
      rw [hnext]
      exact hqstate.trans hstate
    rw [result_waits h hstate hlastEc hwaits] at hresult
    exact hwaits.reader (hlex.place hlastEc' hparsing hcut hresult).1

/-- Behind the document there is white space only. -/
theorem white_of_result {p : Parser} {t : Bytes} (hdone : p.state = .done) (h : p.result toDouble t = .ok v) :
    t.dropWhile (fun b => isWhiteSpace b.toNat) = [] := by
  have hrun := @run_stop toDouble p t (.inr hdone)
  rw [result_of_none (by rw [hrun]), hrun] at h
  split at h
  · assumption
  · cases h

theorem turn_of_result (hne : t ≠ []) (hstate : p.state = .parsing)
    (h : p.result toDouble t = .ok v) : (turn toDouble p [] t).ec = none := by
  by_contra hec
  rw [result_error (by rwa [run_fails hne (by rw [hstate]; nofun) hec])] at h
  cases h

end

/-! ## Where a number begins -/

def Parser.inNumber (p : Parser) : Bool :=
  match p.stack with
  | .number _ _ _ :: _ => true
  | _ => false

/-- The parser behind the bytes `used`: a text of a number is there only inside of one, and values are there only behind the
beginning of one. -/
structure NumberOk (used : Bytes) (p : Parser) : Prop where
  text : p.inNumber = false → p.numberText = []
  number : p.inNumber = true → p.numberText ≠ [] ∧ used.getLast?.any isNumberByte = true
  document : .document 0 ∈ p.stack → p.stack = [.document 0] ∧ p.handler.stack = []

/-- What an act on a code point leaves behind when it makes no error. -/
structure ActOk (cp : Nat) (a : Act) : Prop where
  text : a.parser.inNumber = false → a.parser.numberText = []
  number : a.parser.inNumber = true →
    a.consumed = true ∧ a.parser.numberText ≠ [] ∧ ∃ b : UInt8, b.toNat = cp ∧ isNumberByte b = true
  document : .document 0 ∉ a.parser.stack

theorem Nested.notNumber {p : Parser} (h : Nested p.stack) : p.inNumber = false := by
  rw [Parser.inNumber]
  cases hstack : p.stack with
  | nil => rfl
  | cons item stack =>
      rw [hstack] at h
      cases h <;> rfl

section

variable {p : Parser} {stack : List Item} {cp n : Nat}

theorem ActOk.outside {a : Act} (h : a.parser.inNumber = false) (htext : a.parser.numberText = [])
    (hdocument : .document 0 ∉ a.parser.stack) : ActOk cp a :=
  ⟨fun _ => htext, fun hin => absurd (h.symm.trans hin) Bool.false_ne_true, hdocument⟩

theorem tryParseValue_actOk {q : Parser} (h : tryParseValue p cp = some q) (htext : p.numberText = [])
    (hdocument : .document 0 ∉ p.stack) : ActOk cp (.accept q) := by
  have hitem : ∀ {item : Item}, item ≠ .document 0 → .document 0 ∉ item :: p.stack := fun hne hmem =>
    (List.mem_cons.1 hmem).elim (fun heq => hne heq.symm) hdocument
  simp only [tryParseValue] at h
  split at h
  · cases h
    exact .outside rfl htext (hitem (by simp))
  split at h
  · cases h
    exact .outside rfl htext (hitem (by simp))
  split at h
  · cases h
    exact .outside rfl htext (hitem (by simp))
  split at h
  · rename_i hcp
    cases h
    have hbyte : (UInt8.ofNat cp).toNat = cp := by rw [UInt8.toNat_ofNat', Nat.mod_eq_of_lt (by omega)]
    exact ⟨(fun h => by cases h), fun _ => ⟨rfl, by simp [Act.accept], _, hbyte, isNumberByte_start (by rwa [hbyte])⟩, hitem (fun h => by cases h)⟩
  split at h
  · cases h
    exact .outside rfl htext (hitem (by simp))
  split at h
  · cases h
    exact .outside rfl htext (hitem (by simp))
  · cases h

/-- Behind the item, and with another one in its place. -/
theorem ActOk.pop {a : Act} (hnested : Nested stack) (hdocument : .document 0 ∉ stack) (hstack : a.parser.stack = stack)
    (htext : a.parser.numberText = []) : ActOk cp a := by
  subst hstack
  exact .outside hnested.notNumber htext hdocument

theorem ActOk.refuse (p : Parser) (h : (Act.refuse p).ec = none) : ActOk cp (.refuse p) := nomatch h

theorem not_mem_cons {item : Item} (h : item ≠ .document 0) (hstack : .document 0 ∉ stack) : .document 0 ∉ item :: stack :=
  fun hmem => (List.mem_cons.1 hmem).elim (fun heq => h heq.symm) hstack

theorem colonCodepoint_actOk (hstack : p.stack = .key true :: stack) (htext : p.numberText = []) (hnested : Nested stack)
    (hdocument : .document 0 ∉ stack) (hec : (colonCodepoint stack p cp).ec = none) :
    ActOk cp (colonCodepoint stack p cp) := by
  rw [colonCodepoint] at hec ⊢
  split
  · exact .outside (by rw [Act.accept, Parser.inNumber, hstack]) htext (hstack ▸ not_mem_cons (by simp) hdocument)
  rename_i hwhite
  rw [if_neg hwhite] at hec
  split
  · exact .pop hnested hdocument rfl htext
  · rename_i hcolon
    rw [if_neg hcolon] at hec
    cases hec

theorem arrayCodepoint_actOk {step : ArrayStep} (hstack : p.stack = .array n step :: stack) (htext : p.numberText = [])
    (hnested : Nested stack) (hdocument : .document 0 ∉ stack) (hec : (arrayCodepoint n step stack p cp).ec = none) :
    ActOk cp (arrayCodepoint n step stack p cp) := by
  revert hec
  rw [arrayCodepoint]
  split
  · split
    · exact .refuse _
    split
    · exact fun _ => .pop hnested hdocument rfl htext
    · simp
  split
  · exact fun _ => .pop (hnested.array n step) (not_mem_cons (by simp) hdocument) hstack htext
  split
  · split
    · exact fun _ => .pop (hnested.array n .mustParseValue) (not_mem_cons (by simp) hdocument) rfl htext
    · exact .refuse _
  split
  · exact .refuse _
  split
  · rename_i htry
    exact fun _ => tryParseValue_actOk htry htext (not_mem_cons (by simp) hdocument)
  · exact .refuse _

theorem objectCodepoint_actOk {step : ObjectStep} (hstack : p.stack = .object n step :: stack) (htext : p.numberText = [])
    (hnested : Nested stack) (hdocument : .document 0 ∉ stack) (hec : (objectCodepoint n step stack p cp).ec = none) :
    ActOk cp (objectCodepoint n step stack p cp) := by
  have hquote : ∀ item n step, item = .string ∨ item = .key false →
      ActOk cp (.accept { p with stack := item :: .object n step :: stack }) := by
    rintro item n step (rfl | rfl)
    · exact .outside rfl htext (not_mem_cons nofun (not_mem_cons nofun hdocument))
    · exact .outside rfl htext (not_mem_cons nofun (not_mem_cons nofun hdocument))
  revert hec
  unfold objectCodepoint
  split
  · split
    · exact .refuse _
    split
    · exact fun _ => .pop hnested hdocument rfl htext
    · nofun
  split
  · exact fun _ => .pop (hnested.object n step) (not_mem_cons nofun hdocument) hstack htext
  split
  · split
    · exact fun _ => .pop (hnested.object n .mustParseKey) (not_mem_cons nofun hdocument) rfl htext
    · exact .refuse _
  split
  · split
    · exact .refuse _
    · exact fun _ => hquote _ _ _ (.inl rfl)
    · exact fun _ => hquote _ _ _ (.inr rfl)
  split
  · exact .refuse _
  split
  · rename_i htry
    exact fun _ => tryParseValue_actOk htry htext (not_mem_cons nofun hdocument)
  · exact .refuse _

theorem numberCodepoint_actOk {pointPos ePos : Nat} {hasMinus : Bool} (hne : p.numberText ≠ []) (hnested : Nested stack)
    (hdocument : .document 0 ∉ stack) (hec : (numberCodepoint toDouble pointPos ePos hasMinus stack p cp).ec = none) :
    ActOk cp (numberCodepoint toDouble pointPos ePos hasMinus stack p cp) := by
  rcases numberCodepoint_cases hne hec with ⟨-, -, -, v, -, hparser⟩ | ⟨b, _, _, _, hb, -, hnumber, hact, -⟩
  · exact .pop hnested hdocument (by rw [hparser]) (by rw [hparser])
  · rw [hact]
    exact ⟨nofun, fun _ => ⟨rfl, by simp [Act.accept], b, hb, hnumber⟩, not_mem_cons nofun hdocument⟩

end

section

variable {p : Parser} {stack : List Item} {used used' jtext : Bytes} {n : Nat}

theorem NumberOk.outside (h : p.inNumber = false) (htext : p.numberText = []) (hdocument : .document 0 ∉ p.stack) :
    NumberOk used p :=
  ⟨fun _ => htext, fun hin => absurd (h.symm.trans hin) Bool.false_ne_true, fun hmem => absurd hmem hdocument⟩

theorem withCodepoint_numberOk {act : Parser → Nat → Act} (hreader : p.reader = []) (hne : jtext ≠ [])
    (hact : ∀ cp, (act p cp).ec = none → ActOk cp (act p cp)) (hec : (withCodepoint p jtext act).ec = none)
    (htext : jtext = used' ++ (withCodepoint p jtext act).rest) :
    NumberOk (used ++ used') (withCodepoint p jtext act).parser := by
  have hd := @decode_decodesAs p.reader jtext (.inl hreader) hne
  cases hcp : (decode p.reader jtext).result with
  | error e => simp [withCodepoint, hcp] at hec
  | ok cp =>
      obtain ⟨hnil, hdecode, -⟩ := hd.ok cp hcp
      have hp : ({ p with reader := (decode p.reader jtext).reader } : Parser) = p := by rw [hnil, ← hreader]
      simp only [withCodepoint, hcp, hp] at hec htext ⊢
      generalize (decode p.reader jtext).rest = rest at hdecode htext
      rw [hreader, List.nil_append] at hdecode
      have hok := hact cp hec
      refine ⟨hok.text, fun hin => ?_, fun hmem => absurd hmem hok.document⟩
      obtain ⟨hconsumed, hsome, b, rfl, hb⟩ := hok.number hin
      obtain ⟨b', -, hone, hb'⟩ := utf8Decode_low hdecode (UInt8.lt_iff_toNat_lt.1 (isNumberByte_ascii hb))
      obtain rfl := UInt8.toNat_inj.1 hb'
      rw [if_pos hconsumed] at htext
      have hused : used' = [b'] := List.append_cancel_right (htext.symm.trans hone)
      refine ⟨hsome, ?_⟩
      rw [hused, List.getLast?_concat]
      exact hb

theorem parseConstText_numberOk {desired : Bytes} {v : Value} {item : Nat → Item} {parsed : Nat}
    (hstack : p.stack = item parsed :: stack)
    (hin : ∀ n, Parser.inNumber { p with stack := item n :: stack } = false) (hitem : ∀ n, item n ≠ .document 0)
    (htext : p.numberText = []) (hnested : Nested stack) (hdocument : .document 0 ∉ stack) :
    NumberOk used (parseConstText desired v item parsed p stack jtext).parser := by
  have hsame : NumberOk used p := by
    have hp : ({ p with stack := item parsed :: stack } : Parser) = p := by rw [← hstack]
    exact .outside (hp ▸ hin parsed) htext (hstack ▸ not_mem_cons (hitem parsed) hdocument)
  cases jtext with
  | nil => exact hsame
  | cons b rest =>
      rw [parseConstText]
      split
      · exact hsame
      split
      · exact .outside (Nested.notNumber (p := { p with stack, handler := p.handler.pushValue v }) hnested) htext hdocument
      · exact .outside (hin _) htext (not_mem_cons (hitem _) hdocument)

theorem parseStringWith_numberOk {finish : ValueStack → Bytes → ValueStack} {above : List Item} {seen : Bytes}
    (hin : p.inNumber = false) (habove : Parser.inNumber { p with stack := above } = false) (htext : p.numberText = [])
    (hdocument : .document 0 ∉ p.stack) (hdocument' : .document 0 ∉ above) :
    NumberOk used (parseStringWith finish above p seen jtext).parser := by
  have hsame : ∀ handler reader esc, NumberOk used { p with handler, reader, esc } := fun _ _ _ => .outside hin htext hdocument
  rw [parseStringWith]
  dsimp only
  split
  · exact hsame _ _ _
  · generalize stringCodepoint _ _ _ _ _ = r
    obtain ⟨esc, st⟩ := r
    cases st with
    | finished s => exact .outside habove htext hdocument'
    | _ => exact hsame _ _ _

/-- The whole stack is the document, as long as there is no value. -/
theorem NumberOk.below (h : NumberOk used p) {item : Item} (hstack : p.stack = item :: stack) (hitem : item ≠ .document 0) :
    .document 0 ∉ stack := by
  intro hmem
  have hsame := (h.document (hstack ▸ List.mem_cons_of_mem _ hmem)).1
  rw [hstack] at hsame
  exact hitem (List.cons.inj hsame).1

theorem parseDocument_numberOk (h : NumberOk used p) (hstack : p.stack = .document n :: stack)
    (hnil : stack = []) (hec : (parseDocument p n stack jtext).ec = none)
    (htext : jtext = used' ++ (parseDocument p n stack jtext).rest) :
    (parseDocument p n stack jtext).parser.state = .done ∨
      NumberOk (used ++ used') (parseDocument p n stack jtext).parser := by
  have hin : p.inNumber = false := by rw [Parser.inNumber, hstack]
  have hnumber := h.text hin
  simp only [parseDocument] at hec htext ⊢
  split
  · exact .inl rfl
  rename_i hn
  rw [if_neg hn] at hec htext
  rcases hdecode : utf8Decode jtext with ⟨result, rest⟩
  rw [hdecode] at hec htext
  cases result with
  | error e => cases hec
  | ok cp =>
      dsimp only at hec htext ⊢
      split
      · exact .inr ⟨fun _ => hnumber, fun hin' => absurd (hin.symm.trans hin') Bool.false_ne_true, h.document⟩
      rename_i hwhite
      rw [if_neg hwhite] at hec htext
      cases htry : tryParseValue { p with stack := .document (n + 1) :: stack } cp with
      | none =>
          rw [htry] at hec
          cases hec
      | some q =>
          rw [htry] at htext
          have hok := tryParseValue_actOk htry hnumber (not_mem_cons (by simp) (by rw [hnil]; simp))
          refine .inr ⟨hok.text, fun hin => ?_, fun hmem => absurd hmem hok.document⟩
          obtain ⟨-, hsome, b, rfl, hb⟩ := hok.number hin
          obtain ⟨b', -, hone, hb'⟩ := utf8Decode_low hdecode (UInt8.lt_iff_toNat_lt.1 (isNumberByte_ascii hb))
          obtain rfl := UInt8.toNat_inj.1 hb'
          have hused : used' = [b'] := List.append_cancel_right (htext.symm.trans hone)
          refine ⟨hsome, ?_⟩
          rw [hused, List.getLast?_concat]
          exact hb

/-- A turn that makes no error. -/
theorem turn_numberOk {s : Lex} (hlex : LexOk p [] s) (h : NumberOk used p) (hne : jtext ≠ [])
    (hec : (turn toDouble p [] jtext).ec = none) (htext : jtext = used' ++ (turn toDouble p [] jtext).rest) :
    (turn toDouble p [] jtext).parser.state = .done ∨ NumberOk (used ++ used') (turn toDouble p [] jtext).parser := by
  have hreader : ¬InString p → p.reader = [] := by
    intro hstring
    cases hlex with
    | outside h => exact h.reader
    | within h => exact absurd h.inString hstring
    | carried h => exact absurd h.inString hstring
    | stuck h => exact absurd h.inString hstring
  cases hstack : p.stack with
  | nil => exact absurd hstack hlex.stackOk.ne_nil
  | cons item stack =>
      have hok : StackOk (item :: stack) := hstack ▸ hlex.stackOk
      cases item with
      | document n =>
          have hnil : stack = [] := by cases hok.nested id; rfl
          simp only [turn, hstack] at hec htext ⊢
          exact parseDocument_numberOk h hstack hnil hec htext
      | null parsed =>
          simp only [turn, hstack]
          exact .inr (parseConstText_numberOk hstack (fun _ => rfl) (by simp) (h.text (by rw [Parser.inNumber, hstack]))
            (hok.below trivial) (h.below hstack (by simp)))
      | bool b parsed =>
          simp only [turn, hstack]
          exact .inr (parseConstText_numberOk hstack (fun _ => rfl) (by simp) (h.text (by rw [Parser.inNumber, hstack]))
            (hok.below trivial) (h.below hstack (by simp)))
      | number pointPos ePos hasMinus =>
          obtain ⟨hsome, -⟩ := h.number (by rw [Parser.inNumber, hstack])
          simp only [turn, hstack] at hec htext ⊢
          exact .inr (withCodepoint_numberOk (hreader (by simp [InString, hstack])) hne
            (fun cp => numberCodepoint_actOk hsome (hok.below trivial) (h.below hstack (by simp))) hec htext)
      | string =>
          have hin : p.inNumber = false := by rw [Parser.inNumber, hstack]
          have hdocument := h.below hstack (by simp)
          have hnested : Nested ({ p with stack } : Parser).stack := hok.below trivial
          simp only [turn, hstack]
          exact .inr (parseStringWith_numberOk hin hnested.notNumber (h.text hin) (hstack ▸ not_mem_cons (by simp) hdocument)
            hdocument)
      | key parsedName =>
          have hin : p.inNumber = false := by rw [Parser.inNumber, hstack]
          have hdocument := h.below hstack (by simp)
          cases parsedName with
          | false =>
              simp only [turn, hstack]
              exact .inr (parseStringWith_numberOk hin rfl (h.text hin) (hstack ▸ not_mem_cons (by simp) hdocument)
                (not_mem_cons (by simp) hdocument))
          | true =>
              simp only [turn, hstack] at hec htext ⊢
              exact .inr (withCodepoint_numberOk (hreader (by simp [InString, hstack])) hne
                (fun cp => colonCodepoint_actOk hstack (h.text hin) (hok.below trivial) hdocument) hec htext)
      | array n step =>
          have hin : p.inNumber = false := by rw [Parser.inNumber, hstack]
          have hnested : Nested stack := by cases hok.nested id; assumption
          simp only [turn, hstack] at hec htext ⊢
          exact .inr (withCodepoint_numberOk (hreader (by simp [InString, hstack])) hne
            (fun cp => arrayCodepoint_actOk hstack (h.text hin) hnested (h.below hstack (by simp))) hec htext)
      | object n step =>
          have hin : p.inNumber = false := by rw [Parser.inNumber, hstack]
          have hnested : Nested stack := by cases hok.nested id; assumption
          simp only [turn, hstack] at hec htext ⊢
          exact .inr (withCodepoint_numberOk (hreader (by simp [InString, hstack])) hne
            (fun cp => objectCodepoint_actOk hstack (h.text hin) hnested (h.below hstack (by simp))) hec htext)

/-- A run that makes no error, on the whole text. -/
theorem run_numberOk {s : Lex} (hlex : LexOk p [] s) (h : NumberOk used p) (hstate : p.state ≠ .done)
    (hec : (run toDouble p jtext).ec = none) :
    (run toDouble p jtext).parser.state = .done ∨
      ((run toDouble p jtext).rest = [] ∧ NumberOk (used ++ jtext) (run toDouble p jtext).parser) := by
  induction hn : turnsLeft p jtext using Nat.strongRecOn generalizing p jtext used s with
  | ind n ih =>
      rcases eq_or_ne jtext [] with rfl | hne
      · rw [run_nil, List.append_nil]
        exact .inr ⟨rfl, h⟩
      have ht := @eagerTurn_turned toDouble p jtext hlex.readerOk hne
      have hturn : (eagerTurn toDouble p jtext).ec = none := by
        by_contra hturn
        rw [run_fails hne hstate hturn] at hec
        exact hturn hec
      rw [run_next hlex.readerOk hne hstate hturn] at hec ⊢
      by_cases hdone : (eagerTurn toDouble p jtext).parser.state = .done
      · rw [run_stop (.inr hdone)]
        exact .inl hdone
      obtain ⟨used', htext, -, hlex'⟩ := turn_lex hlex hne hturn
      have hok := (turn_numberOk hlex h hne hturn htext).resolve_left hdone
      have hless := hn ▸ (ht.less hturn).resolve_left hdone
      have hmore := ih _ hless (hlex'.resolve_left hdone).flush ⟨hok.text, hok.number, hok.document⟩ hdone hec rfl
      have htext' : jtext = used' ++ (eagerTurn toDouble p jtext).rest := htext
      rw [List.append_assoc, ← htext'] at hmore
      exact hmore

/-- The parser that has begun a number. -/
def Parser.begin (p : Parser) (b : UInt8) (below : List Item) : Parser :=
  { p with numberText := [b], stack := .number 0 0 (b = 0x2d) :: below }

theorem tryParseValue_number (htext : p.numberText = []) {b : UInt8} (hb : isNumberStart b = true) :
    tryParseValue p b.toNat = some (p.begin b p.stack) := by
  obtain ⟨-, -, -, hrange⟩ := isNumberStart_facts hb
  have hminus : (b.toNat = 0x2d) ↔ b = 0x2d := (UInt8.toNat_inj (a := b) (b := 0x2d))
  rw [tryParseValue, if_neg (by omega), if_neg (by omega), if_neg (by omega), if_pos hrange, htext, UInt8.ofNat_toNat,
    Parser.begin]
  simp [hminus]

/-- Where a parser accepts the beginning of a number, the number is begun. -/
theorem turn_begin {b : UInt8} {rest : Bytes} (h : Between p) (hok : NumberOk used p) (hin : p.inNumber = false)
    (hb : isNumberStart b = true) (hec : (turn toDouble p [] (b :: rest)).ec = none)
    (hdone : (turn toDouble p [] (b :: rest)).parser.state ≠ .done) :
    ∃ below, turn toDouble p [] (b :: rest) = ⟨p.begin b below, [], rest, none⟩ ∧
      ∀ n, below = [.document n] → p.handler.stack = [] := by
  obtain ⟨hascii, -, hwhite, hrange⟩ := isNumberStart_facts hb
  have htext := hok.text hin
  have htry : ∀ stack, tryParseValue { p with stack } b.toNat = some (p.begin b stack) := fun stack =>
    tryParseValue_number (p := { p with stack }) htext hb
  have hconst : ∀ desired v item parsed stack, (∀ c ∈ desired, isNumberStart c = false) →
      (parseConstText desired v item parsed p stack (b :: rest)).ec ≠ none := by
    intro desired v item parsed stack hdesired
    have hother : desired[parsed]? ≠ some b := fun hsome => by
      rw [hdesired b (List.mem_of_getElem? hsome)] at hb
      cases hb
    rw [parseConstText, if_pos hother]
    simp
  cases hstack : p.stack with
  | nil => exact absurd hstack h.stackOk.ne_nil
  | cons item stack =>
      cases item with
      | document n =>
          rcases Nat.eq_zero_or_pos n with rfl | hn
          · refine ⟨.document 1 :: stack, ?_, fun _ _ => (hok.document (by rw [hstack]; exact List.mem_cons_self)).2⟩
            simp [turn, hstack, parseDocument, utf8Decode_ascii hascii, hwhite, htry]
          · simp only [turn, hstack, parseDocument, if_pos hn] at hdone
            exact absurd rfl hdone
      | null parsed =>
          simp only [turn, hstack] at hec
          exact absurd hec (hconst _ _ _ _ _ (@of_decide_eq_true _ (List.decidableBAll _ _) rfl))
      | bool c parsed =>
          simp only [turn, hstack] at hec
          exact absurd hec (hconst _ _ _ _ _ (by cases c <;> exact @of_decide_eq_true _ (List.decidableBAll _ _) rfl))
      | number pointPos ePos hasMinus => simp [Parser.inNumber, hstack] at hin
      | string => exact absurd (by simp [InString, hstack]) h.notString
      | key parsedName =>
          cases parsedName with
          | false => exact absurd (by simp [InString, hstack]) h.notString
          | true =>
              simp only [turn, hstack, parseKey, if_true, withCodepoint_ascii h.reader hascii, colonCodepoint, hwhite] at hec
              rw [if_neg Bool.false_ne_true, if_neg (by omega)] at hec
              cases hec
      | array n step =>
          have hturn : turn toDouble p [] (b :: rest) = withCodepoint p (b :: rest) (arrayCodepoint n step stack) := by
            simp only [turn, hstack, parseArray]
          rw [hturn, withCodepoint_ascii h.reader hascii] at hec ⊢
          simp only [arrayCodepoint, hwhite, htry] at hec ⊢
          rw [if_neg (by omega), if_neg Bool.false_ne_true, if_neg (by omega)] at hec ⊢
          split at hec
          · cases hec
          · rename_i hstep
            rw [if_neg hstep]
            exact ⟨_, rfl, (by simp)⟩
      | object n step =>
          have hturn : turn toDouble p [] (b :: rest) = withCodepoint p (b :: rest) (objectCodepoint n step stack) := by
            simp only [turn, hstack, parseObject]
          rw [hturn, withCodepoint_ascii h.reader hascii] at hec ⊢
          simp only [objectCodepoint, hwhite, htry] at hec ⊢
          rw [if_neg (by omega), if_neg Bool.false_ne_true, if_neg (by omega), if_neg (by omega)] at hec ⊢
          split at hec
          · cases hec
          · rename_i hstep
            rw [if_neg hstep]
            exact ⟨_, rfl, (by simp)⟩

end

end Rad.Json
