import Rad.Json.Lemmas.Cuts

/-!
# Strings and the scanner

Within a string the state of the scanner is that of the escape, and whether there is a view. Behind a text that ends
inside the bytes of a character, the scanner has seen plain characters before it exactly when there is a view.
-/

namespace Rad.Json

variable {toDouble : Bool → Bytes → Except ErrorCode UInt64}

/-! ## The bytes of a character -/

@[simp] theorem scan_nil (s : Lex) : s.scan [] = s := rfl

@[simp] theorem scan_cons (s : Lex) (b : UInt8) (t : Bytes) : s.scan (b :: t) = (s.step b).scan t := rfl

theorem scan_append (s : Lex) (t u : Bytes) : s.scan (t ++ u) = (s.scan t).scan u := List.foldl_append

theorem scan_sequence {t : Bytes} {missing : Nat} {plain : Bool} (h : t.length < missing) :
    (Lex.sequence missing plain).scan t = .sequence (missing - t.length) plain := by
  induction t generalizing missing with
  | nil => rfl
  | cons b t ih =>
      rw [List.length_cons] at h
      rw [scan_cons, Lex.step, if_neg (by omega), ih (by omega), List.length_cons, Nat.sub_sub, Nat.add_comm 1]

theorem scan_carried {t : Bytes} {missing : Nat} (h : t.length < missing) :
    (Lex.carried missing).scan t = .carried (missing - t.length) := by
  induction t generalizing missing with
  | nil => rfl
  | cons b t ih =>
      rw [List.length_cons] at h
      rw [scan_cons, Lex.step, if_neg (by omega), ih (by omega), List.length_cons, Nat.sub_sub, Nat.add_comm 1]

theorem scan_sequence_whole {t : Bytes} {plain : Bool} (hne : t ≠ []) : (Lex.sequence t.length plain).scan t = .text true := by
  rcases List.eq_nil_or_concat t with rfl | ⟨init, b, rfl⟩
  · exact absurd rfl hne
  · rw [List.concat_eq_append, scan_append, scan_sequence (by simp), List.length_append, Nat.add_sub_cancel_left]
    rfl

theorem scan_carried_whole {t : Bytes} (hne : t ≠ []) : (Lex.carried t.length).scan t = .text false := by
  rcases List.eq_nil_or_concat t with rfl | ⟨init, b, rfl⟩
  · exact absurd rfl hne
  · rw [List.concat_eq_append, scan_append, scan_carried (by simp), List.length_append, Nat.add_sub_cancel_left]
    rfl

theorem utf8SequenceSize_ascii {b : UInt8} : utf8SequenceSize b = 1 ↔ b < 0x80 := by
  have hall : ∀ n < 256, utf8SequenceSize (UInt8.ofNat n) = 1 ↔ UInt8.ofNat n < 0x80 := by decide +kernel
  have := hall b.toNat b.toNat_lt
  rwa [UInt8.ofNat_toNat] at this

/-- A character that is no quotation mark and no reverse solidus. -/
theorem scan_plain {b : UInt8} {conts : Bytes} (hsize : utf8SequenceSize b = conts.length + 1) (hquote : b ≠ 0x22)
    (hsolidus : b ≠ 0x5c) (plain : Bool) : (Lex.text plain).scan (b :: conts) = .text true := by
  rw [scan_cons, Lex.step, if_neg hquote, if_neg hsolidus]
  split
  · rename_i hascii
    have hone := utf8SequenceSize_ascii.2 hascii
    have hnil : conts = [] := List.length_eq_zero_iff.1 (by omega)
    rw [hnil]
    rfl
  · rename_i hhigh
    have hne : conts ≠ [] := by
      rintro rfl
      exact hhigh (utf8SequenceSize_ascii.1 hsize)
    rw [hsize, Nat.add_sub_cancel, scan_sequence_whole hne]

/-- The beginning of a character. -/
theorem scan_begun {t : Bytes} (hne : t ≠ []) (h : Utf8Begun t) (plain : Bool) :
    ∃ missing, (Lex.text plain).scan t = .sequence missing plain ∧ missing = utf8SequenceSize (t.headD 0) - t.length := by
  obtain ⟨b, conts, rfl⟩ := List.exists_cons_of_ne_nil hne
  have hlen := h.1
  rw [List.headD_cons, List.length_cons] at hlen
  have hhigh : ¬b < 0x80 := fun hascii => by
    have := utf8SequenceSize_ascii.2 hascii
    omega
  have hquote : b ≠ 0x22 := by
    rintro rfl
    exact hhigh (by decide)
  have hsolidus : b ≠ 0x5c := by
    rintro rfl
    exact hhigh (by decide)
  refine ⟨_, ?_, rfl⟩
  rw [scan_cons, Lex.step, if_neg hquote, if_neg hsolidus, if_neg hhigh, scan_sequence (by omega), List.headD_cons,
    List.length_cons, Nat.sub_sub, Nat.add_comm 1]

/-! ## Escapes -/

/-- The state of the scanner in an escape or outside of one. -/
def lexOf (esc : EscapeState) (plain : Bool) : Lex :=
  match esc with
  | .none => .text plain
  | .wantEscape => .escape
  | .wantHexDigits _ digits => .hex (4 - digits.length)
  | .wantReverseSolidus _ => .text false
  | .wantU _ => .escape

theorem unescapedChar_low {cp : Nat} {ch : UInt8} (h : unescapedChar cp = some ch) : cp < 0x80 := by
  rw [unescapedChar] at h
  repeat' split at h
  all_goals first | omega | cases h

theorem isHexDigit_low {cp : Nat} (h : isHexDigit cp = true) : cp < 0x80 := by
  simp only [isHexDigit, Bool.or_eq_true, Bool.and_eq_true, decide_eq_true_eq] at h
  omega

/-- A character that is accepted in an escape is a byte, and leads the scanner on as it does the parser. -/
theorem escape_scan {cp : Nat} {esc esc' : EscapeState} {result : Bytes} (hesc : esc ≠ .none)
    (h : parseJsonEscapeSequence cp esc = (esc', .ok result)) :
    cp < 0x80 ∧ ∀ b : UInt8, b.toNat = cp → (lexOf esc false).step b = lexOf esc' false := by
  have hbyte : ∀ {b c : UInt8}, b.toNat = c.toNat → b = c := fun h => UInt8.toNat_inj.1 h
  cases esc with
  | none => exact absurd rfl hesc
  | wantEscape =>
      simp only [parseJsonEscapeSequence] at h
      split at h
      · rename_i hcp
        cases h
        refine ⟨by omega, fun b hb => ?_⟩
        rw [hbyte (c := 0x75) (hb.trans hcp)]
        rfl
      · rename_i hcp
        cases hchar : unescapedChar cp with
        | none => simp [hchar] at h
        | some ch =>
            simp only [hchar, Prod.mk.injEq] at h
            obtain ⟨rfl, -⟩ := h
            refine ⟨unescapedChar_low hchar, fun b hb => ?_⟩
            have hne : b ≠ 0x75 := by
              rintro rfl
              exact hcp hb.symm
            exact if_neg hne
  | wantHexDigits hexBuff digits =>
      simp only [parseJsonEscapeSequence] at h
      split at h
      · cases h
      rename_i hdigit
      rw [Bool.not_eq_true', Bool.not_eq_false] at hdigit
      refine ⟨isHexDigit_low hdigit, fun b hb => ?_⟩
      rw [List.length_append, List.length_singleton] at h
      split at h
      · rename_i hlt
        cases h
        rw [lexOf, Lex.step, if_neg (by omega), lexOf, List.length_append, List.length_singleton, Nat.sub_sub]
      · rename_i hge
        have hstep : (lexOf (.wantHexDigits hexBuff digits) false).step b = .text false := if_pos (by omega)
        rw [hstep]
        cases hexBuff with
        | none =>
            dsimp only at h
            split at h <;> cases h <;> rfl
        | some hexBuff =>
            simp only [Prod.mk.injEq] at h
            obtain ⟨rfl, -⟩ := h
            rfl
  | wantReverseSolidus hexBuff =>
      simp only [parseJsonEscapeSequence] at h
      split at h
      · cases h
      · rename_i hcp
        rw [ne_eq, Decidable.not_not] at hcp
        cases h
        refine ⟨by omega, fun b hb => ?_⟩
        rw [hbyte (c := 0x5c) (hb.trans hcp)]
        rfl
  | wantU hexBuff =>
      simp only [parseJsonEscapeSequence] at h
      split at h
      · cases h
      · rename_i hcp
        rw [ne_eq, Decidable.not_not] at hcp
        cases h
        refine ⟨by omega, fun b hb => ?_⟩
        rw [hbyte (c := 0x75) (hb.trans hcp)]
        rfl

/-! ## The relation -/

/-- The scanner is where the parser is, with what the parser has of a view. -/
inductive LexOk (p : Parser) (seen : Bytes) : Lex → Prop where
  | outside (h : Between p) (hseen : seen = []) : LexOk p seen .outside
  | within (h : Within p) (hreader : p.reader = []) (hseen : seen = [] ∨ p.esc = .none) :
      LexOk p seen (lexOf p.esc (seen ≠ []))
  | carried (h : Within p) (hesc : p.esc = .none) (hreader : p.reader ≠ []) (hseen : seen = []) :
      LexOk p seen (.carried (utf8SequenceSize (p.reader.headD 0) - p.reader.length))
  /-- What begins inside an escape with more than one byte is an error, wherever the scanner is. -/
  | stuck (h : Within p) (hesc : p.esc ≠ .none) (hreader : p.reader ≠ []) (hseen : seen = []) (s : Lex) : LexOk p seen s

theorem LexOk.stackOk {p : Parser} {seen : Bytes} {s : Lex} (h : LexOk p seen s) : StackOk p.stack := by
  cases h with
  | outside h => exact h.stackOk
  | within h => exact h.stackOk
  | carried h => exact h.stackOk
  | stuck h => exact h.stackOk

theorem LexOk.readerOk {p : Parser} {seen : Bytes} {s : Lex} (h : LexOk p seen s) : ReaderOk p.reader := by
  cases h with
  | outside h => exact .inl h.reader
  | within h => exact h.readerOk
  | carried h => exact h.readerOk
  | stuck h => exact h.readerOk

/-- What is behind the quotation mark at the end of a string or of a key. -/
theorem Within.turn_eq {p : Parser} (h : Within p) :
    ∃ finish above, (∀ q : Parser, q.stack = above → q.esc = .none → q.reader = [] → Between q) ∧
      ∀ q : Parser, q.stack = p.stack → ∀ seen jtext, turn toDouble q seen jtext = parseStringWith finish above q seen jtext := by
  have hstring := h.inString
  have hok := h.stackOk
  cases hstack : p.stack with
  | nil => simp [InString, hstack] at hstring
  | cons item stack =>
      rw [hstack] at hok
      cases item with
      | string =>
          have hnested := hok.below trivial
          refine ⟨ValueStack.pushString, stack, fun q hq hesc hreader => .nested (hq ▸ hnested) hesc hreader, ?_⟩
          intro q hq seen jtext
          simp only [turn, hq]
          rfl
      | key parsedName =>
          cases parsedName with
          | true => simp [InString, hstack] at hstring
          | false =>
              have hnested := hok.below trivial
              refine ⟨ValueStack.pushKey, .key true :: stack, fun q hq hesc hreader => ?_, fun q hq seen jtext => ?_⟩
              · exact ⟨hq ▸ hnested.leaf trivial, by simp [InString, hq], hesc, hreader⟩
              · simp only [turn, hq]
                rfl
      | _ => simp [InString, hstack] at hstring

section

variable {finish : ValueStack → Bytes → ValueStack} {above : List Item} {p : Parser} {seen jtext : Bytes} {s : Lex}

@[simp] theorem deliver_rest (st : StringTurn) (p : Parser) (seen rest : Bytes) :
    (st.deliver finish above p seen rest).rest = rest := by
  cases st <;> rfl

/-- A character outside of the escapes. -/
theorem stringCodepoint_lex {b : UInt8} {conts rest : Bytes} {cp : Nat} {r : EscapeState × StringTurn} (h : Within p)
    (habove : ∀ q : Parser, q.stack = above → q.esc = .none → q.reader = [] → Between q)
    (hdecode : utf8Decode (b :: (conts ++ rest)) = (.ok cp, rest)) (hsize : utf8SequenceSize b = conts.length + 1)
    (hr : stringCodepoint false (b :: conts) seen .none cp = r) :
    LexOk (r.2.deliver finish above { p with reader := [], esc := r.1 } seen rest).parser
      (r.2.deliver finish above { p with reader := [], esc := r.1 } seen rest).seen ((Lex.text (seen ≠ [])).scan (b :: conts)) := by
  have hwithin : ∀ esc handler, Within { p with handler, reader := [], esc } :=
    fun _ _ => ⟨h.stackOk, h.inString, .inl rfl⟩
  have hone : cp < 0x80 → conts = [] ∧ b.toNat = cp := by
    intro hlow
    obtain ⟨b', -, htext, hb⟩ := utf8Decode_low hdecode hlow
    obtain ⟨rfl, htail⟩ := List.cons.inj htext
    exact ⟨List.append_left_eq_self.1 htail, hb⟩
  have hsame : ∀ c : UInt8, c < 0x80 → cp ≠ c.toNat → b ≠ c := by
    rintro c hc hcp rfl
    rw [utf8Decode_ascii hc] at hdecode
    exact hcp (Except.ok.inj (Prod.mk.inj hdecode).1).symm
  simp only [stringCodepoint, ne_eq, not_true_eq_false, if_false, Bool.false_eq_true] at hr
  split at hr
  · -- the reverse solidus, before which the view is delivered
    rename_i hsolidus
    obtain ⟨rfl, hb⟩ := hone (by omega)
    obtain rfl : b = 0x5c := UInt8.toNat_inj.1 (hb.trans hsolidus)
    rcases eq_or_ne seen [] with rfl | hseen
    · subst hr
      exact .within (hwithin .wantEscape p.handler) rfl (.inl rfl)
    · rw [if_neg hseen] at hr
      subst hr
      exact .within (hwithin .wantEscape (p.handler.pushChars seen)) rfl (.inl rfl)
  split at hr
  · rename_i hquote
    obtain ⟨rfl, hb⟩ := hone (by omega)
    obtain rfl : b = 0x22 := UInt8.toNat_inj.1 (hb.trans hquote)
    subst hr
    exact .outside (habove _ rfl rfl rfl) rfl
  · rename_i hsolidus hquote
    have hview : ∀ plain, (Lex.text plain).scan (b :: conts) = .text true :=
      scan_plain hsize (hsame 0x22 (by decide) hquote) (hsame 0x5c (by decide) hsolidus)
    subst hr
    have hlex : LexOk { p with reader := [], esc := .none } (seen ++ b :: conts)
        (lexOf .none (seen ++ b :: conts ≠ [])) := .within (hwithin .none p.handler) rfl (.inr rfl)
    have hplain : decide (seen ++ b :: conts ≠ []) = true := by simp
    rw [lexOf, hplain] at hlex
    rw [hview]
    exact hlex

/-- A character of an escape. -/
theorem escapeCodepoint_lex {used rest raw : Bytes} {cp : Nat} {cached : Bool} {r : EscapeState × StringTurn} (h : Within p)
    (hesc : p.esc ≠ .none) (hdecode : utf8Decode (used ++ rest) = (.ok cp, rest))
    (hr : stringCodepoint cached raw [] p.esc cp = r)
    (hec : (r.2.deliver finish above { p with reader := [], esc := r.1 } [] rest).ec = none) :
    LexOk (r.2.deliver finish above { p with reader := [], esc := r.1 } [] rest).parser
      (r.2.deliver finish above { p with reader := [], esc := r.1 } [] rest).seen ((lexOf p.esc false).scan used) := by
  have hwithin : ∀ esc handler, Within { p with handler, reader := [], esc } :=
    fun _ _ => ⟨h.stackOk, h.inString, .inl rfl⟩
  simp only [stringCodepoint, ne_eq, hesc, not_false_eq_true, if_true] at hr
  rcases hparse : parseJsonEscapeSequence cp p.esc with ⟨esc', result⟩
  rw [hparse] at hr
  cases result with
  | error e =>
      subst hr
      cases hec
  | ok result =>
      obtain ⟨hlow, hstep⟩ := escape_scan hesc hparse
      obtain ⟨b, -, htext, hb⟩ := utf8Decode_low hdecode hlow
      obtain rfl : used = [b] := List.append_cancel_right htext
      rw [scan_cons, scan_nil, hstep b hb]
      dsimp only at hr
      split at hr
      · subst hr
        exact .within (hwithin esc' p.handler) rfl (.inl rfl)
      · subst hr
        exact .within (hwithin esc' (p.handler.pushChars result)) rfl (.inl rfl)

/-- In an escape a character of more than one byte is an error. -/
theorem Within.stuck_fails (h : Within p) (hesc : p.esc ≠ .none) (hsome : p.reader ≠ []) (hne : jtext ≠ []) :
    (parseStringWith finish above p seen jtext).ec ≠ none := by
  intro hec
  have hd := decode_decodesAs h.readerOk hne
  cases hresult : (decode p.reader jtext).result with
  | error e => simp [parseStringWith, hresult] at hec
  | ok cp =>
      obtain ⟨-, hdecode, -⟩ := hd.ok cp hresult
      obtain ⟨used, hused, htext, -⟩ := hd.exists_used h.readerOk hresult
      simp only [parseStringWith, hresult] at hec
      rcases hparse : parseJsonEscapeSequence cp p.esc with ⟨esc', result⟩
      cases result with
      | error e => simp [stringCodepoint, hesc, hparse, StringTurn.deliver] at hec
      | ok result =>
          obtain ⟨b, -, hone, -⟩ := utf8Decode_low hdecode (escape_scan hesc hparse).1
          have hlen := congrArg List.length hone
          have htextLen := congrArg List.length htext
          rw [List.length_append, List.length_cons] at hlen
          rw [List.length_append] at htextLen
          have := List.length_pos_of_ne_nil hsome
          have := List.length_pos_of_ne_nil hused
          omega

/-- A turn within a string. -/
theorem parseStringWith_lex (h : LexOk p seen s) (hstring : InString p)
    (habove : ∀ q : Parser, q.stack = above → q.esc = .none → q.reader = [] → Between q) (hne : jtext ≠ [])
    (hec : (parseStringWith finish above p seen jtext).ec = none) :
    ∃ used, used ≠ [] ∧ jtext = used ++ (parseStringWith finish above p seen jtext).rest ∧
      LexOk (parseStringWith finish above p seen jtext).parser (parseStringWith finish above p seen jtext).seen
        (s.scan used) := by
  have hwithin : Within p := ⟨h.stackOk, hstring, h.readerOk⟩
  have hfails : p.esc ≠ .none → p.reader ≠ [] → False := fun hesc hsome => hwithin.stuck_fails hesc hsome hne hec
  have hd := decode_decodesAs h.readerOk hne
  cases hresult : (decode p.reader jtext).result with
  | error e => simp [parseStringWith, hresult] at hec
  | ok cp =>
      obtain ⟨hreader, hdecode, hraw⟩ := hd.ok cp hresult
      obtain ⟨used, hused, htext, hrawused⟩ := hd.exists_used h.readerOk hresult
      simp only [parseStringWith, hresult, hreader] at hec ⊢
      generalize hrest : (decode p.reader jtext).rest = rest at hdecode htext hec ⊢
      generalize hrraw : (decode p.reader jtext).raw = raw at hrawused hec ⊢
      obtain ⟨b, conts, hsequence, hsize, -⟩ := utf8Decode_ok hdecode
      have hsequence' : p.reader ++ used = b :: conts := by
        rw [htext, ← List.append_assoc, ← List.cons_append] at hsequence
        exact List.append_cancel_right hsequence
      refine ⟨used, hused, by rw [deliver_rest, htext], ?_⟩
      cases h with
      | outside h => exact absurd hstring h.notString
      | within h hnil hseen =>
          have hcached : decide (p.reader ≠ []) = false := by simp [hnil]
          rw [hnil, List.nil_append] at hdecode hsequence' hrawused
          by_cases hesc : p.esc = .none
          · rw [htext, hsequence', List.cons_append] at hdecode
            have hlex := @stringCodepoint_lex finish above p seen b conts rest cp _ h habove hdecode hsize rfl
            rw [hcached, hesc, hrawused, hsequence']
            exact hlex
          · obtain rfl := hseen.resolve_right hesc
            rw [htext] at hdecode
            exact escapeCodepoint_lex h hesc hdecode rfl hec
      | carried h hesc hsome hseen =>
          have hcached : decide (p.reader ≠ []) = true := by simp [hsome]
          have hlen : used.length = utf8SequenceSize (p.reader.headD 0) - p.reader.length := by
            have hhead : p.reader.headD 0 = b := by
              obtain ⟨c, cs, hreader⟩ := List.exists_cons_of_ne_nil hsome
              rw [hreader, List.cons_append] at hsequence'
              rw [hreader, List.headD_cons, (List.cons.inj hsequence').1]
            have hsum := congrArg List.length hsequence'
            rw [List.length_append, List.length_cons] at hsum
            rw [hhead, hsize]
            omega
          have hlex : LexOk { p with handler := p.handler.pushChars raw, reader := [], esc := .none } []
              (lexOf .none (([] : Bytes) ≠ [])) := .within ⟨h.stackOk, h.inString, .inl rfl⟩ rfl (.inl rfl)
          rw [hcached, hesc, ← hlen, scan_carried_whole hused]
          exact hlex
      | stuck h hesc hsome hseen => exact (hfails hesc hsome).elim

/-- A turn that makes no error, and the bytes that it consumes. -/
theorem turn_lex (h : LexOk p seen s) (hne : jtext ≠ []) (hec : (turn toDouble p seen jtext).ec = none) :
    ∃ used, jtext = used ++ (turn toDouble p seen jtext).rest ∧ (used = [] → s = .outside) ∧
      ((turn toDouble p seen jtext).parser.state = .done ∨
        LexOk (turn toDouble p seen jtext).parser (turn toDouble p seen jtext).seen (s.scan used)) := by
  have hwithin : ∀ h : Within p, ∃ used, jtext = used ++ (turn toDouble p seen jtext).rest ∧ (used = [] → s = .outside) ∧
      ((turn toDouble p seen jtext).parser.state = .done ∨
        LexOk (turn toDouble p seen jtext).parser (turn toDouble p seen jtext).seen (s.scan used)) := by
    intro hwithin
    obtain ⟨finish, above, habove, hturn⟩ := @Within.turn_eq toDouble p hwithin
    rw [hturn p rfl] at hec ⊢
    obtain ⟨used, hused, htext, hlex⟩ := parseStringWith_lex h hwithin.inString habove hne hec
    exact ⟨used, htext, fun hnil => absurd hnil hused, .inr hlex⟩
  cases h with
  | outside hbetween hseen =>
      subst hseen
      obtain ⟨hseen, ⟨hrest, hnext⟩ | ⟨b, -, htext, hb⟩⟩ := hbetween.turn_leads hne hec
      · exact ⟨[], hrest.symm, fun _ => rfl, hnext.imp_right fun hbetween' => .outside hbetween' hseen⟩
      · refine ⟨[b], htext, nofun, .inr ?_⟩
        rw [hseen]
        rcases hb with ⟨rfl, hin, hesc, hreader⟩ | ⟨hb, hbetween'⟩
        · have hlex : LexOk _ [] _ := .within hin hreader (.inl rfl)
          rwa [hesc] at hlex
        · rw [scan_cons, scan_nil, Lex.step, if_neg hb]
          exact .outside hbetween' rfl
  | within h => exact hwithin h
  | carried h => exact hwithin h
  | stuck h => exact hwithin h

end

end Rad.Json
