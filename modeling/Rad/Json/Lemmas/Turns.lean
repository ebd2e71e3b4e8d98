import Rad.Json.Lemmas.Decode

/-!
# What a turn of the parser does

A turn that makes no error consumes text or ends a number or the document, and it does the same whatever is behind the
text that it looks at.
-/

namespace Rad.Json

variable {toDouble : Bool → Bytes → Except ErrorCode UInt64}

/-! ## Code points -/

/-- What the acts on a code point leave alone. Only a number leaves the code point, and it is over then. -/
structure Keeps (p : Parser) (a : Act) : Prop where
  reader : a.parser.reader = p.reader
  state : a.parser.state = p.state
  lastEc : a.parser.lastEc = p.lastEc
  left : a.ec = none → a.consumed = false → p.numberText ≠ [] ∧ a.parser.numberText = []

theorem Keeps.accept {p q : Parser} (hreader : q.reader = p.reader) (hstate : q.state = p.state)
    (hlastEc : q.lastEc = p.lastEc) : Keeps p (.accept q) := ⟨hreader, hstate, hlastEc, nofun⟩

theorem Keeps.refuse {p q : Parser} (hreader : q.reader = p.reader) (hstate : q.state = p.state)
    (hlastEc : q.lastEc = p.lastEc) : Keeps p (.refuse q) := ⟨hreader, hstate, hlastEc, nofun⟩

theorem tryParseValue_keeps {p q : Parser} {cp : Nat} (h : tryParseValue p cp = some q) :
    q.reader = p.reader ∧ q.state = p.state ∧ q.lastEc = p.lastEc := by
  rw [tryParseValue] at h
  repeat' split at h
  all_goals cases h
  all_goals exact ⟨rfl, rfl, rfl⟩

theorem validateAndReportNumber_keeps (p : Parser) (pointPos ePos : Nat) (hasMinus : Bool) (stack : List Item) :
    (validateAndReportNumber toDouble p pointPos ePos hasMinus stack).1.reader = p.reader ∧
    (validateAndReportNumber toDouble p pointPos ePos hasMinus stack).1.state = p.state ∧
    (validateAndReportNumber toDouble p pointPos ePos hasMinus stack).1.lastEc = p.lastEc ∧
    (validateAndReportNumber toDouble p pointPos ePos hasMinus stack).1.numberText = [] := by
  rw [validateAndReportNumber]
  split <;> exact ⟨rfl, rfl, rfl, rfl⟩

theorem numberCodepoint_keeps (pointPos ePos : Nat) (hasMinus : Bool) (stack : List Item) (p : Parser) (cp : Nat) :
    Keeps p (numberCodepoint toDouble pointPos ePos hasMinus stack p cp) := by
  have haccept : ∀ text item, Keeps p (.accept { p with numberText := text, stack := item :: stack }) :=
    fun _ _ => .accept rfl rfl rfl
  have hrefuse : Keeps p (.refuse p) := .refuse rfl rfl rfl
  simp only [numberCodepoint]
  split
  · split
    · exact haccept _ _
    · exact hrefuse
  split
  · split
    · exact haccept _ _
    · exact hrefuse
  split
  · split
    · exact hrefuse
    · exact haccept _ _
  split
  · split
    · exact hrefuse
    · exact haccept _ _
  split
  · exact haccept _ _
  split
  · rename_i hdigit
    obtain ⟨hreader, hstate, hlastEc, htext⟩ :=
      @validateAndReportNumber_keeps toDouble p pointPos ePos hasMinus stack
    refine ⟨hreader, hstate, hlastEc, fun _ _ => ⟨?_, htext⟩⟩
    intro hnil
    rw [hnil] at hdigit
    cases hdigit
  · exact hrefuse

theorem colonCodepoint_keeps (stack : List Item) (p : Parser) (cp : Nat) : Keeps p (colonCodepoint stack p cp) := by
  rw [colonCodepoint]
  split
  · exact .accept rfl rfl rfl
  split
  · exact .accept rfl rfl rfl
  · exact .refuse rfl rfl rfl

theorem arrayCodepoint_keeps (n : Nat) (step : ArrayStep) (stack : List Item) (p : Parser) (cp : Nat) :
    Keeps p (arrayCodepoint n step stack p cp) := by
  rw [arrayCodepoint]
  split
  · split
    · exact .refuse rfl rfl rfl
    split
    · exact .accept rfl rfl rfl
    · exact ⟨rfl, rfl, rfl, nofun⟩
  split
  · exact .accept rfl rfl rfl
  split
  · split
    · exact .accept rfl rfl rfl
    · exact .refuse rfl rfl rfl
  split
  · exact .refuse rfl rfl rfl
  split
  · rename_i htry
    obtain ⟨hreader, hstate, hlastEc⟩ := tryParseValue_keeps htry
    exact .accept hreader hstate hlastEc
  · exact .refuse rfl rfl rfl

theorem objectCodepoint_keeps (n : Nat) (step : ObjectStep) (stack : List Item) (p : Parser) (cp : Nat) :
    Keeps p (objectCodepoint n step stack p cp) := by
  unfold objectCodepoint
  split
  · split
    · exact .refuse rfl rfl rfl
    split
    · exact .accept rfl rfl rfl
    · exact ⟨rfl, rfl, rfl, nofun⟩
  split
  · exact .accept rfl rfl rfl
  split
  · split
    · exact .accept rfl rfl rfl
    · exact .refuse rfl rfl rfl
  split
  · cases step with
    | parseSep => exact .refuse rfl rfl rfl
    | _ => exact .accept rfl rfl rfl
  split
  · exact .refuse rfl rfl rfl
  split
  · rename_i htry
    obtain ⟨hreader, hstate, hlastEc⟩ := tryParseValue_keeps htry
    exact .accept hreader hstate hlastEc
  · exact .refuse rfl rfl rfl

/-! ## Turns -/

/-- What bounds the number of turns that are left. -/
def turnsLeft (p : Parser) (jtext : Bytes) : Nat := 2 * jtext.length + if p.numberText = [] then 0 else 1

theorem turnsLeft_lt_of_length_lt {p q : Parser} {rest jtext : Bytes} (h : rest.length < jtext.length) :
    turnsLeft q rest < turnsLeft p jtext := by
  rw [turnsLeft, turnsLeft]
  split <;> split <;> omega

/-- What a turn `f` on a text does: with the text as it is, and with more text behind it. -/
structure Turned (p : Parser) (jtext : Bytes) (f : Bytes → Turn) : Prop where
  lastEc : (f jtext).parser.lastEc = p.lastEc
  state : (f jtext).parser.state = p.state ∨ (f jtext).parser.state = .done
  readerOk : ReaderOk (f jtext).parser.reader
  less : (f jtext).ec = none → (f jtext).parser.state = .done ∨ turnsLeft (f jtext).parser (f jtext).rest < turnsLeft p jtext
  shift : (f jtext).ec = none → ∀ more, f (jtext ++ more) = { f jtext with rest := (f jtext).rest ++ more }
  ends : (f jtext).parser.state = .done → p.state = .done ∨ (f jtext).rest = jtext

namespace Turned

variable {p : Parser} {jtext : Bytes} {f : Bytes → Turn}

theorem fails {t : Turn} (ht : f jtext = t) (hec : t.ec ≠ none) (hlastEc : t.parser.lastEc = p.lastEc)
    (hstate : t.parser.state = p.state) (hreader : ReaderOk t.parser.reader) : Turned p jtext f := by
  subst ht
  exact ⟨hlastEc, .inl hstate, hreader, fun h => absurd h hec, fun h => absurd h hec, fun h => .inl (hstate ▸ h)⟩

theorem goesOn {q : Parser} {seen rest : Bytes} (ht : ∀ more, f (jtext ++ more) = ⟨q, seen, rest ++ more, none⟩)
    (hlastEc : q.lastEc = p.lastEc) (hstate : q.state = p.state) (hreader : ReaderOk q.reader)
    (hless : turnsLeft q rest < turnsLeft p jtext) : Turned p jtext f := by
  have h := ht []
  rw [List.append_nil, List.append_nil] at h
  refine ⟨?_, ?_, ?_, fun _ => ?_, fun _ more => ?_, fun hdone => ?_⟩
  all_goals rw [h] at *
  · exact hlastEc
  · exact .inl hstate
  · exact hreader
  · exact .inr hless
  · exact ht more
  · exact .inl (hstate ▸ hdone)

end Turned

/-- A code point is a part of the text, and it is the same with more text behind. -/
theorem decode_rest_lt {cached jtext : Bytes} {cp : Nat} (h : ReaderOk cached) (hne : jtext ≠ [])
    (hcp : (decode cached jtext).result = .ok cp) : (decode cached jtext).rest.length < jtext.length := by
  obtain ⟨used, hused, htext, -⟩ := (decode_decodesAs h hne).exists_used h hcp
  have := List.length_pos_of_ne_nil hused
  have := congrArg List.length htext
  rw [List.length_append] at this
  omega

theorem withCodepoint_turned {p : Parser} {jtext : Bytes} {act : Parser → Nat → Act} (h : ReaderOk p.reader)
    (hne : jtext ≠ []) (hact : ∀ q cp, Keeps q (act q cp)) : Turned p jtext fun jtext => withCodepoint p jtext act := by
  have hd := decode_decodesAs h hne
  cases hresult : (decode p.reader jtext).result with
  | error e =>
      have hturn : withCodepoint p jtext act =
          ⟨{ p with reader := (decode p.reader jtext).reader }, [], (decode p.reader jtext).rest, some .inputError⟩ := by
        simp only [withCodepoint, hresult]
      exact .fails hturn nofun rfl rfl hd.readerOk
  | ok cp =>
      have hlt := decode_rest_lt h hne hresult
      have hkeeps := hact { p with reader := (decode p.reader jtext).reader } cp
      have hturn : ∀ more, withCodepoint p (jtext ++ more) act =
          ⟨(act { p with reader := (decode p.reader jtext).reader } cp).parser, [],
            (if (act { p with reader := (decode p.reader jtext).reader } cp).consumed then (decode p.reader jtext).rest
              else jtext) ++ more, (act { p with reader := (decode p.reader jtext).reader } cp).ec⟩ := by
        intro more
        simp only [withCodepoint, decode_append_ok h hne hresult more, hresult]
        split <;> rfl
      generalize hq : ({ p with reader := (decode p.reader jtext).reader } : Parser) = q at hkeeps hturn
      have hq' : q.lastEc = p.lastEc ∧ q.state = p.state ∧ q.numberText = p.numberText ∧ ReaderOk q.reader := by
        rw [← hq]
        exact ⟨rfl, rfl, rfl, hd.readerOk⟩
      obtain ⟨hlastEc, hstate, hnumber, hreader⟩ := hq'
      rw [← hkeeps.lastEc] at hlastEc
      rw [← hkeeps.state] at hstate
      rw [← hkeeps.reader] at hreader
      by_cases hec : (act q cp).ec = none
      · rw [hec] at hturn
        refine .goesOn hturn hlastEc hstate hreader ?_
        cases hconsumed : (act q cp).consumed with
        | true => exact turnsLeft_lt_of_length_lt hlt
        | false =>
            obtain ⟨hnumbers, hnil⟩ := hkeeps.left hec hconsumed
            rw [hnumber] at hnumbers
            simp [turnsLeft, hnil, hnumbers]
      · have hturn' := hturn []
        rw [List.append_nil] at hturn'
        exact .fails hturn' hec hlastEc hstate hreader

theorem parseDocument_turned {p : Parser} {n : Nat} {stack : List Item} {jtext : Bytes} (h : ReaderOk p.reader) :
    Turned p jtext fun jtext => parseDocument p n stack jtext := by
  by_cases hn : 0 < n
  · have hturn : ∀ jtext, parseDocument p n stack jtext = ⟨{ p with stack, state := .done }, [], jtext, none⟩ :=
      fun jtext => if_pos hn
    refine ⟨?_, ?_, ?_, fun _ => ?_, fun _ more => ?_, fun _ => ?_⟩
    all_goals rw [hturn]
    · exact .inr rfl
    · exact h
    · exact .inl rfl
    · rw [hturn]
    · exact .inr rfl
  · rcases hdecode : utf8Decode jtext with ⟨result, rest⟩
    cases result with
    | error e =>
        have hturn : parseDocument p n stack jtext = ⟨p, [], rest, some .inputError⟩ := by
          simp only [parseDocument, if_neg hn, hdecode]
        exact .fails hturn nofun rfl rfl h
    | ok cp =>
        have hlt : rest.length < jtext.length := by
          obtain ⟨b, conts, htext, -⟩ := utf8Decode_ok hdecode
          rw [htext, List.length_cons, List.length_append]
          omega
        have hmore := utf8Decode_append hdecode
        cases hspace : isWhiteSpace cp with
        | true =>
            have hturn : ∀ more, parseDocument p n stack (jtext ++ more) = ⟨p, [], rest ++ more, none⟩ := by
              intro more
              simp only [parseDocument, if_neg hn, hmore, hspace, if_true]
            exact .goesOn hturn rfl rfl h (turnsLeft_lt_of_length_lt hlt)
        | false =>
            cases htry : tryParseValue { p with stack := .document (n + 1) :: stack } cp with
            | some q =>
                have hturn : ∀ more, parseDocument p n stack (jtext ++ more) = ⟨q, [], rest ++ more, none⟩ := by
                  intro more
                  simp only [parseDocument, if_neg hn, hmore, hspace, Bool.false_eq_true, if_false, htry]
                obtain ⟨hreader, hstate, hlastEc⟩ := tryParseValue_keeps htry
                exact .goesOn hturn hlastEc hstate (hreader ▸ h) (turnsLeft_lt_of_length_lt hlt)
            | none =>
                have hturn : parseDocument p n stack jtext = ⟨p, [], jtext, some .badSyntax⟩ := by
                  simp only [parseDocument, if_neg hn, hdecode, hspace, Bool.false_eq_true, if_false, htry]
                exact .fails hturn nofun rfl rfl h

theorem parseConstText_turned {desired : Bytes} {v : Value} {item : Nat → Item} {parsed : Nat} {p : Parser}
    {stack : List Item} {jtext : Bytes} (h : ReaderOk p.reader) (hne : jtext ≠ []) :
    Turned p jtext fun jtext => parseConstText desired v item parsed p stack jtext := by
  obtain ⟨b, rest, rfl⟩ := List.exists_cons_of_ne_nil hne
  have hlt : rest.length < (b :: rest).length := Nat.lt_succ_self _
  by_cases hsame : desired[parsed]? ≠ some b
  · have hturn : parseConstText desired v item parsed p stack (b :: rest) = ⟨p, [], b :: rest, some .badSyntax⟩ :=
      if_pos hsame
    exact .fails hturn nofun rfl rfl h
  · by_cases hwhole : parsed + 1 = desired.length
    · have hturn : ∀ more, parseConstText desired v item parsed p stack (b :: rest ++ more) =
          ⟨{ p with handler := p.handler.pushValue v, stack }, [], rest ++ more, none⟩ := by
        intro more
        rw [List.cons_append, parseConstText, if_neg hsame, if_pos hwhole]
      exact .goesOn hturn rfl rfl h (turnsLeft_lt_of_length_lt hlt)
    · have hturn : ∀ more, parseConstText desired v item parsed p stack (b :: rest ++ more) =
          ⟨{ p with stack := item (parsed + 1) :: stack }, [], rest ++ more, none⟩ := by
        intro more
        rw [List.cons_append, parseConstText, if_neg hsame, if_neg hwhole]
      exact .goesOn hturn rfl rfl h (turnsLeft_lt_of_length_lt hlt)

theorem parseStringWith_turned {finish : ValueStack → Bytes → ValueStack} {above : List Item} {p : Parser}
    {seen jtext : Bytes} (h : ReaderOk p.reader) (hne : jtext ≠ []) :
    Turned p jtext fun jtext => parseStringWith finish above p seen jtext := by
  have hd := decode_decodesAs h hne
  cases hresult : (decode p.reader jtext).result with
  | error e =>
      have hturn : parseStringWith finish above p seen jtext =
          ⟨{ p with reader := (decode p.reader jtext).reader }, seen, (decode p.reader jtext).rest, some (.errc e)⟩ := by
        simp only [parseStringWith, hresult]
      exact .fails hturn nofun rfl rfl hd.readerOk
  | ok cp =>
      have hturn : ∀ more, parseStringWith finish above p seen (jtext ++ more) =
          (stringCodepoint (p.reader ≠ []) (decode p.reader jtext).raw seen p.esc cp).2.deliver finish above
            { p with
              reader := (decode p.reader jtext).reader
              esc := (stringCodepoint (p.reader ≠ []) (decode p.reader jtext).raw seen p.esc cp).1 }
            seen ((decode p.reader jtext).rest ++ more) := by
        intro more
        simp only [parseStringWith, decode_append_ok h hne hresult more, hresult]
      have hless : ∀ q, turnsLeft q (decode p.reader jtext).rest < turnsLeft p jtext :=
        fun q => turnsLeft_lt_of_length_lt (decode_rest_lt h hne hresult)
      generalize stringCodepoint (p.reader ≠ []) (decode p.reader jtext).raw seen p.esc cp = r at hturn
      obtain ⟨esc, st⟩ := r
      cases st with
      | failed ec =>
          have hturn' := hturn []
          rw [List.append_nil] at hturn'
          exact .fails hturn' nofun rfl rfl hd.readerOk
      | part s => exact .goesOn hturn rfl rfl hd.readerOk (hless _)
      | finished s => exact .goesOn hturn rfl rfl hd.readerOk (hless _)
      | goesOn s => exact .goesOn hturn rfl rfl hd.readerOk (hless _)

/-- Every turn. -/
theorem turn_turned {p : Parser} {seen jtext : Bytes} (h : ReaderOk p.reader) (hne : jtext ≠ []) :
    Turned p jtext fun jtext => turn toDouble p seen jtext := by
  cases hstack : p.stack with
  | nil =>
      have hturn : turn toDouble p seen jtext = ⟨p, seen, jtext, some .undefined⟩ := by simp only [turn, hstack]
      exact .fails hturn nofun rfl rfl h
  | cons item stack =>
      cases item with
      | document n =>
          simp only [turn, hstack]
          exact parseDocument_turned h
      | null parsed =>
          simp only [turn, hstack]
          exact parseConstText_turned h hne
      | bool b parsed =>
          simp only [turn, hstack]
          exact parseConstText_turned h hne
      | number pointPos ePos hasMinus =>
          simp only [turn, hstack]
          exact withCodepoint_turned h hne (numberCodepoint_keeps pointPos ePos hasMinus stack)
      | string =>
          simp only [turn, hstack]
          exact parseStringWith_turned h hne
      | key parsedName =>
          simp only [turn, hstack]
          cases parsedName with
          | true => exact withCodepoint_turned h hne (colonCodepoint_keeps stack)
          | false => exact parseStringWith_turned h hne
      | array n step =>
          simp only [turn, hstack]
          exact withCodepoint_turned h hne (arrayCodepoint_keeps n step stack)
      | object n step =>
          simp only [turn, hstack]
          exact withCodepoint_turned h hne (objectCodepoint_keeps n step stack)

end Rad.Json
