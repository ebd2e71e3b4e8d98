import Rad.Json.Lemmas.Decode
import Rad.Json.Lemmas.Sax

/-!
# How a call goes on

The loops end: a turn that consumes nothing ends the number or the document, or it is the last one of an array or object
that takes a value. What is said of a call is said at its beginning, of a turn, and of its end.
-/

namespace Rad.Json.Sax

/-! ## The number of turns -/

/-- How many turns that consume nothing there are with an item on top of the stack. -/
def Item.weight : Item → Nat
  | .array _ step => if step = .parseSep then 2 else 3
  | .object _ step => if step = .parseSep then 2 else 3
  | _ => 2

def topWeight : List Item → Nat
  | [] => 1
  | item :: _ => item.weight

theorem topWeight_bounds (stack : List Item) : 1 ≤ topWeight stack ∧ topWeight stack ≤ 3 := by
  cases stack with
  | nil => exact ⟨le_rfl, by decide⟩
  | cons item stack =>
      cases item with
      | array n step | object n step => simp only [topWeight, Item.weight]; split <;> omega
      | _ => exact ⟨Nat.le_add_left 1 1, Nat.le_add_left 2 1⟩

section

variable {σ : Type} {h : Handler σ} {toDouble : Bool → Bytes → Except ErrorCode UInt64} {p q : Parser σ} {item : Item}
  {stack : List Item} {jtext seen rest : Bytes} {ec : Option Error} {cp n : Nat}

def Parser.weight (p : Parser σ) : Nat := (if p.numberText = [] then 0 else 4) + topWeight p.stack

theorem Parser.weight_bounds (p : Parser σ) : 1 ≤ p.weight ∧ p.weight ≤ 7 := by
  have := topWeight_bounds p.stack
  unfold Parser.weight
  split <;> omega

/-- The loops end with it. -/
def Turn.Stops (t : Turn σ) : Prop := t.rest = [] ∨ t.parser.state ≠ .parsing ∨ t.ec ≠ none ∨ t.parser.broken = true

/-- A turn goes on in the text, ends the loops, or is one of the few that leave the text as it is. -/
structure Turn.Goes (p : Parser σ) (jtext : Bytes) (t : Turn σ) : Prop where
  reader : ReaderOk t.parser.reader
  progress : t.rest.length < jtext.length ∨ t.Stops ∨ (t.rest = jtext ∧ t.parser.weight < p.weight)

/-- An act on a code point that is not consumed. -/
def Act.Leaves (p : Parser σ) (a : Act σ) : Prop :=
  a.consumed = true ∨ a.ec ≠ none ∨ a.parser.weight < p.weight

theorem withCodepoint_goes {act : Parser σ → Nat → Act σ} (hreader : ReaderOk p.reader) (hne : jtext ≠ [])
    (hkeeps : ∀ q cp, (act q cp).parser.reader = q.reader)
    (hact : ∀ cp, Act.Leaves p (act { p with reader := (decode p.reader jtext).reader } cp)) :
    (withCodepoint p jtext act).Goes p jtext := by
  have hd := decode_decodesAs hreader hne
  cases hcp : (decode p.reader jtext).result with
  | error e =>
      simp only [withCodepoint, hcp]
      exact ⟨hd.readerOk, .inr (.inl (.inr (.inr (.inl (by simp)))))⟩
  | ok cp =>
      simp only [withCodepoint, hcp]
      refine ⟨by rw [hkeeps]; exact hd.readerOk, ?_⟩
      obtain ⟨used, hused, htext, -⟩ := hd.exists_used hreader hcp
      have hlt : (decode p.reader jtext).rest.length < jtext.length := by
        have hlen := congrArg List.length htext
        rw [List.length_append] at hlen
        have := List.length_pos_iff.2 hused
        omega
      by_cases hconsumed : (act { p with reader := (decode p.reader jtext).reader } cp).consumed = true
      · rw [if_pos hconsumed]
        exact .inl hlt
      · rw [if_neg hconsumed]
        rcases hact cp with hyes | hec | hweight
        · exact absurd hyes hconsumed
        · exact .inr (.inl (.inr (.inr (.inl hec))))
        · exact .inr (.inr ⟨rfl, hweight⟩)

theorem Act.leaves_accept (q : Parser σ) : Act.Leaves p (.accept q) := .inl rfl

theorem Act.leaves_refuse (q : Parser σ) : Act.Leaves p (.refuse q) := .inr (.inl (by simp [Act.refuse]))

/-- A value that is refused leaves no text of a number. -/
theorem tryParseValue_numberText (p : Parser σ) (cp : Nat) (ec : Option Error)
    (hfalse : (tryParseValue h p cp ec).2.1 = false) : (tryParseValue h p cp ec).1.numberText = p.numberText := by
  revert hfalse
  unfold tryParseValue
  repeat' split
  all_goals first | exact fun _ => (beginContainer_frame p _ _).2 | exact fun _ => rfl | exact nofun

variable (h toDouble) in
theorem validateAndReportNumber_reader (p : Parser σ) (pointPos ePos : Nat) (hasMinus : Bool) (stack : List Item) :
    (validateAndReportNumber h toDouble p pointPos ePos hasMinus stack).1.reader = p.reader := by
  unfold validateAndReportNumber
  split <;> rfl

theorem numberCodepoint_reader (pointPos ePos : Nat) (hasMinus : Bool) (stack : List Item) (p : Parser σ) (cp : Nat) :
    (numberCodepoint h toDouble pointPos ePos hasMinus stack p cp).parser.reader = p.reader := by
  unfold numberCodepoint
  dsimp only
  repeat' split
  all_goals first | rfl | exact validateAndReportNumber_reader _ _ _ _ _ _ _

theorem validateAndReportNumber_weight {pointPos ePos : Nat} {hasMinus : Bool} (htext : p.numberText ≠ [])
    (hp : p.stack = .number pointPos ePos hasMinus :: stack) :
    (validateAndReportNumber h toDouble p pointPos ePos hasMinus stack).1.weight < p.weight := by
  have hp' : p.weight = 6 := by rw [Parser.weight, if_neg htext, hp]; rfl
  have hstack := topWeight_bounds stack
  unfold validateAndReportNumber
  split <;> simp only [Parser.weight, if_true] at hp' ⊢ <;> omega

theorem parseNumber_goes {pointPos ePos : Nat} {hasMinus : Bool} (hreader : ReaderOk p.reader) (hne : jtext ≠ [])
    (hp : p.stack = .number pointPos ePos hasMinus :: stack) :
    (parseNumber h toDouble p pointPos ePos hasMinus stack seen jtext).Goes p jtext := by
  have hgoes : (withCodepoint p jtext (numberCodepoint h toDouble pointPos ePos hasMinus stack)).Goes p jtext := by
    refine withCodepoint_goes hreader hne (numberCodepoint_reader _ _ _ _) fun cp => ?_
    unfold numberCodepoint
    dsimp only
    split
    next => split; exacts [Act.leaves_accept _, Act.leaves_refuse _]
    next =>
    split
    next => split; exacts [Act.leaves_accept _, Act.leaves_refuse _]
    next =>
    split
    next => split; exacts [Act.leaves_refuse _, Act.leaves_accept _]
    next =>
    split
    next => split; exacts [Act.leaves_refuse _, Act.leaves_accept _]
    next =>
    split
    next => exact Act.leaves_accept _
    next =>
    split
    next hdigit =>
      have htext : p.numberText ≠ [] := fun hnil => by simp [endsInDigit, hnil] at hdigit
      exact .inr (.inr
        (validateAndReportNumber_weight (p := { p with reader := (decode p.reader jtext).reader }) htext hp))
    next => exact Act.leaves_refuse _
  exact ⟨hgoes.reader, hgoes.progress⟩

theorem parseConstText_goes {desired : Bytes} {e : Event} {make : Nat → Item} {parsed : Nat}
    (hreader : ReaderOk p.reader)
    (hne : jtext ≠ []) : (parseConstText h desired e make parsed p stack jtext).Goes p jtext := by
  unfold parseConstText
  cases jtext with
  | nil => exact absurd rfl hne
  | cons b rest =>
      dsimp only
      split
      next => exact ⟨hreader, .inr (.inl (.inr (.inr (.inl (by simp)))))⟩
      next => split <;> exact ⟨hreader, .inl (by simp)⟩

theorem deliverPart_reader (kind : StringKind) (p : Parser σ) (n : Nat) (stack : List Item) (part : Bytes) :
    (deliverPart h kind p n stack part).1.reader = p.reader := by
  unfold deliverPart
  dsimp only
  repeat' split
  all_goals rfl

theorem deliverLast_reader (kind : StringKind) (p : Parser σ) (n : Nat) (stack : List Item) (part : Bytes) :
    (deliverLast h kind p n stack part).1.reader = p.reader := by
  unfold deliverLast
  dsimp only
  split <;> rfl

theorem parseStringWith_goes {kind : StringKind} (hreader : ReaderOk p.reader) (hne : jtext ≠ []) :
    (parseStringWith h kind p n stack seen jtext).Goes p jtext := by
  have hd := decode_decodesAs hreader hne
  unfold parseStringWith
  dsimp only
  split
  next => exact ⟨hd.readerOk, .inr (.inl (.inr (.inr (.inl (by simp)))))⟩
  next cp hcp =>
  obtain ⟨used, hused, htext, -⟩ := hd.exists_used hreader hcp
  have hlt : (decode p.reader jtext).rest.length < jtext.length := by
    have hlen := congrArg List.length htext
    rw [List.length_append] at hlen
    have := List.length_pos_iff.2 hused
    omega
  split
  next => exact ⟨hd.readerOk, .inl hlt⟩
  next => exact ⟨by rw [deliverPart_reader]; exact hd.readerOk, .inl hlt⟩
  next => exact ⟨by rw [deliverLast_reader]; exact hd.readerOk, .inl hlt⟩
  next => exact ⟨hd.readerOk, .inl hlt⟩

theorem parseKey_goes {parsedName : Bool} (hreader : ReaderOk p.reader) (hne : jtext ≠ []) :
    (parseKey h p n parsedName stack seen jtext).Goes p jtext := by
  unfold parseKey
  split
  next =>
    refine withCodepoint_goes hreader hne (fun q cp => ?_) fun cp => ?_
    · unfold colonCodepoint
      repeat' split
      all_goals rfl
    · unfold colonCodepoint
      split
      next => exact Act.leaves_accept _
      next => split; exacts [Act.leaves_accept _, Act.leaves_refuse _]
  next => exact parseStringWith_goes hreader hne

/-- The item becomes one that has just begun a value. -/
theorem Act.leaves_back {q : Parser σ} {consumed : Bool} {back : Item} (hnumber : q.numberText = p.numberText)
    (hback : back.weight < topWeight p.stack) : Act.Leaves p ⟨{ q with stack := back :: stack }, consumed, ec⟩ := by
  refine .inr (.inr ?_)
  simp only [Parser.weight, hnumber, topWeight]
  exact Nat.add_lt_add_left hback _

theorem arrayCodepoint_reader (n : Nat) (step : ArrayStep) (stack : List Item) (p : Parser σ) (cp : Nat) :
    (arrayCodepoint h n step stack p cp).parser.reader = p.reader := by
  unfold arrayCodepoint
  split
  next => split <;> rfl
  next =>
  split
  next => rfl
  next =>
  split
  next => split <;> rfl
  next =>
  split
  next => rfl
  next =>
  have htry := tryParseValue_reader (h := h) { p with stack := .array (n + 1) .parseSep :: stack } cp
    (if n + 1 > h.maxArraySize then some Error.arrayTooLarge else none)
  dsimp only
  split
  next heq => rw [heq] at htry; exact htry
  next heq => rw [heq] at htry; exact htry

theorem parseArray_goes {step : ArrayStep} (hreader : ReaderOk p.reader) (hne : jtext ≠ [])
    (hp : p.stack = .array n step :: stack) : (parseArray h p n step stack jtext).Goes p jtext := by
  refine withCodepoint_goes hreader hne (arrayCodepoint_reader _ _ _) fun cp => ?_
  unfold arrayCodepoint
  split
  next => split; exacts [Act.leaves_refuse _, .inl rfl]
  next =>
  split
  next => exact Act.leaves_accept _
  next =>
  split
  next => split; exacts [Act.leaves_accept _, Act.leaves_refuse _]
  next =>
  split
  next => exact Act.leaves_refuse _
  next hstep =>
  have htry := tryParseValue_numberText (h := h)
    { p with reader := (decode p.reader jtext).reader, stack := .array (n + 1) .parseSep :: stack } cp
    (if n + 1 > h.maxArraySize then some Error.arrayTooLarge else none)
  dsimp only
  split
  next => exact .inl rfl
  next heq =>
    rw [heq] at htry
    exact Act.leaves_back (htry rfl) (by simp [hp, topWeight, Item.weight, hstep])

theorem objectCodepoint_reader (n : Nat) (step : ObjectStep) (stack : List Item) (p : Parser σ) (cp : Nat) :
    (objectCodepoint h n step stack p cp).parser.reader = p.reader := by
  unfold objectCodepoint
  split
  next => split <;> rfl
  next =>
  split
  next => rfl
  next =>
  split
  next => split <;> rfl
  next =>
  split
  next =>
    split
    next => rfl
    next => rfl
    next => dsimp only; split <;> rfl
  next =>
  split
  next => rfl
  next =>
  have htry := tryParseValue_reader (h := h) { p with stack := .object n .parseSep :: stack } cp none
  split
  next heq => rw [heq] at htry; exact htry
  next heq => rw [heq] at htry; exact htry

theorem parseObject_goes {step : ObjectStep} (hreader : ReaderOk p.reader) (hne : jtext ≠ [])
    (hp : p.stack = .object n step :: stack) : (parseObject h p n step stack jtext).Goes p jtext := by
  refine withCodepoint_goes hreader hne (objectCodepoint_reader _ _ _) fun cp => ?_
  unfold objectCodepoint
  split
  next => split; exacts [Act.leaves_refuse _, .inl rfl]
  next =>
  split
  next => exact Act.leaves_accept _
  next =>
  split
  next => split; exacts [Act.leaves_accept _, Act.leaves_refuse _]
  next =>
  split
  next =>
    split
    next => exact Act.leaves_refuse _
    next => exact Act.leaves_accept _
    next =>
      dsimp only
      split
      next => exact .inr (.inl (by simp))
      next => exact Act.leaves_accept _
  next =>
  split
  next => exact Act.leaves_refuse _
  next hstep =>
  have htry := tryParseValue_numberText (h := h)
    { p with reader := (decode p.reader jtext).reader, stack := .object n .parseSep :: stack } cp none
  split
  next => exact .inl rfl
  next heq =>
    rw [heq] at htry
    obtain rfl : step = .parseValue := not_not.1 hstep
    exact Act.leaves_back (htry rfl) (by simp [hp, topWeight, Item.weight])

theorem endDocument_reader (p : Parser σ) (stack : List Item) : (endDocument h p stack).1.reader = p.reader := by
  cases ha : (h.on p.handler .documentEnd).2.ok with
  | true => simp [endDocument, Parser.call, ha]
  | false => simp [endDocument, Parser.call, ha]

theorem endDocument_state (p : Parser σ) (stack : List Item) : (endDocument h p stack).1.state ≠ .parsing := by
  cases ha : (h.on p.handler .documentEnd).2.ok with
  | true => simp [endDocument, Parser.call, ha]
  | false => simp [endDocument, Parser.call, ha]

theorem utf8Decode_rest_lt {cp : Nat} {rest : Bytes} (hd : utf8Decode jtext = (.ok cp, rest)) :
    rest.length < jtext.length := by
  obtain ⟨b, conts, rfl, -⟩ := utf8Decode_ok hd
  rw [List.length_cons, List.length_append]
  omega

theorem parseDocument_goes (hreader : ReaderOk p.reader) : (parseDocument h p n stack jtext).Goes p jtext := by
  unfold parseDocument
  split
  next => exact ⟨by rw [endDocument_reader]; exact hreader, .inr (.inl (.inr (.inl (endDocument_state p stack))))⟩
  next =>
  split
  next => exact ⟨hreader, .inr (.inl (.inr (.inr (.inl (by simp)))))⟩
  next cp rest hd =>
  have hlt := utf8Decode_rest_lt hd
  split
  next => exact ⟨hreader, .inl hlt⟩
  next =>
  have htry := tryParseValue_reader (h := h) { p with stack := .document (n + 1) :: stack } cp none
  split
  next heq => rw [heq] at htry; exact ⟨htry ▸ hreader, .inl hlt⟩
  next heq => rw [heq] at htry; exact ⟨htry ▸ hreader, .inr (.inl (.inr (.inr (.inl (by simp)))))⟩

variable (h toDouble seen) in
theorem turn_goes (hreader : ReaderOk p.reader) (hne : jtext ≠ []) : (turn h toDouble p seen jtext).Goes p jtext := by
  unfold turn
  split
  next => exact ⟨hreader, .inr (.inl (.inr (.inr (.inr rfl))))⟩
  next => exact parseDocument_goes hreader
  next => exact parseConstText_goes hreader hne
  next => exact parseConstText_goes hreader hne
  next hp => exact parseNumber_goes hreader hne hp
  next => exact parseStringWith_goes hreader hne
  next => exact parseKey_goes hreader hne
  next hp => exact parseArray_goes hreader hne hp
  next hp => exact parseObject_goes hreader hne hp

/-! ## The loop -/

def Turn.measure (t : Turn σ) : Nat := 8 * t.rest.length + t.parser.weight

theorem pass_stops {t : Turn σ} (hstops : t.Stops) : pass h toDouble t = .done t := if_pos hstops

theorem pass_goes {t : Turn σ} (hstops : ¬t.Stops) :
    pass h toDouble t = .next (turn h toDouble t.parser t.seen t.rest) :=
  if_neg hstops

theorem stops_of_pass {t t' : Turn σ} (hpass : pass h toDouble t = .done t') : t.Stops ∧ t' = t := by
  by_cases hstops : t.Stops
  · rw [pass_stops hstops] at hpass
    cases hpass
    exact ⟨hstops, rfl⟩
  · rw [pass_goes hstops] at hpass
    cases hpass

variable (h toDouble) in
theorem runLoop_isSome {fuel : Nat} {t : Turn σ} (hreader : ReaderOk t.parser.reader) (hfuel : t.measure < fuel) :
    (Lib.runLoop (pass h toDouble) fuel t).isSome := by
  induction fuel generalizing t with
  | zero => omega
  | succ fuel ih =>
      rw [Lib.runLoop]
      by_cases hstops : t.Stops
      · rw [pass_stops hstops]
        rfl
      rw [pass_goes hstops]
      have hne : t.rest ≠ [] := fun hnil => hstops (.inl hnil)
      have hgoes := turn_goes h toDouble t.seen hreader hne
      have hold := t.parser.weight_bounds
      have hnew := (turn h toDouble t.parser t.seen t.rest).parser.weight_bounds
      have hpos : 0 < fuel := by
        simp only [Turn.measure] at hfuel
        omega
      rcases hgoes.progress with hlt | hends | ⟨hrest, hweight⟩
      · exact ih hgoes.reader (by simp only [Turn.measure] at hfuel ⊢; omega)
      · obtain ⟨fuel, rfl⟩ := Nat.exists_eq_add_one_of_ne_zero hpos.ne'
        simp only [Lib.runLoop, pass_stops hends]
        rfl
      · exact ih hgoes.reader (by simp only [Turn.measure] at hfuel ⊢; rw [hrest]; omega)

variable (h toDouble) in
/-- The loop of `write_some` ends in a turn that it comes to. -/
theorem exists_last (hreader : ReaderOk p.reader) (jtext : Bytes) :
    ∃ t, Lib.Visits (pass h toDouble) ⟨p, [], jtext, none⟩ t ∧ t.Stops ∧
      parseText h toDouble p jtext =
        (if t.ec = none ∧ t.rest = [] then
          ⟨(flush h t.parser t.seen).1, [], [], (flush h t.parser t.seen).2⟩ else t) := by
  have hmeasure : (⟨p, [], jtext, none⟩ : Turn σ).measure < turnsFor jtext := by
    have := p.weight_bounds
    simp only [Turn.measure, turnsFor]
    omega
  obtain ⟨t, ht⟩ := Option.isSome_iff_exists.1 (runLoop_isSome h toDouble hreader hmeasure)
  obtain ⟨last, hvisits, hlast⟩ := (Lib.returns_of_runLoop ht).exists_last
  obtain ⟨hstops, rfl⟩ := stops_of_pass hlast
  refine ⟨t, hvisits, hstops, ?_⟩
  rw [parseText, ht]
  rfl

/-- Every turn that is reached is behind a reader that holds the beginning of a character. -/
theorem readerOk_of_visits {t t' : Turn σ} (hvisits : Lib.Visits (pass h toDouble) t t')
    (hreader : ReaderOk t.parser.reader) :
    ReaderOk t'.parser.reader := by
  refine hvisits.preserves (I := fun t => ReaderOk t.parser.reader) (fun u v _ hu hpass => ?_) hreader
  by_cases hstops : u.Stops
  · rw [pass_stops hstops] at hpass
    cases hpass
  · rw [pass_goes hstops] at hpass
    cases hpass
    exact (turn_goes h toDouble u.seen hu fun hnil => hstops (.inl hnil)).reader

end

end Rad.Json.Sax
