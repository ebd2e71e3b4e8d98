import Rad.Url.States
import Rad.Text.Lemmas.Codecs

/-!
# Invariants of the parser

An invariant is about the variables of the loop, the text in front of the next code point and the text from it on.
-/

namespace Rad.Url

/-! ## Where the pointer is

The input is the text in front of the next code point and the text from it on.
-/

namespace UrlPointer

/-- The next code point is the first one of `rest`. -/
structure At (p : UrlPointer) (before rest : Bytes) : Prop where
  originalInput : p.originalInput = before ++ rest
  next : p.next = before.length
  remainingSize : p.remainingSize = rest.length

/-- The code point `unit` has been read. -/
structure Behind (p : UrlPointer) (before unit rest : Bytes) : Prop where
  originalInput : p.originalInput = before ++ (unit ++ rest)
  next : p.next = before.length + unit.length
  remainingSize : p.remainingSize = rest.length
  current : p.current = before.length

/-- The end of the input has been read. -/
structure AtEof (p : UrlPointer) (before : Bytes) : Prop where
  originalInput : p.originalInput = before
  next : p.next = before.length + 1
  remainingSize : p.remainingSize = 0

variable {p q : UrlPointer} {before unit rest : Bytes}

theorem at_ofInput (input : Bytes) : (ofInput input).At [] input := ⟨rfl, rfl, rfl⟩

theorem At.isEof (h : p.At before rest) : p.isEof = false := by
  simp only [UrlPointer.isEof, inputEnd, h.next, h.originalInput, List.length_append, decide_eq_false_iff_not]
  omega

theorem Behind.isEof (h : p.Behind before unit rest) : p.isEof = false := by
  simp only [UrlPointer.isEof, inputEnd, h.next, h.originalInput, List.length_append, decide_eq_false_iff_not]
  omega

theorem AtEof.isEof (h : p.AtEof before) : p.isEof = true := by
  simp only [UrlPointer.isEof, inputEnd, h.next, h.originalInput, decide_eq_true_eq]
  omega

theorem At.remaining (h : p.At before rest) : p.remaining = rest := by
  rw [UrlPointer.remaining, h.originalInput, h.next, h.remainingSize, List.drop_left, List.take_length]

/-! ## Advancing -/

theorem At.advance_nil (h : p.At before []) : ∃ q, p.advance = .ok (0, q) ∧ q.AtEof before := by
  have hinput : p.originalInput = before := by rw [h.originalInput, List.append_nil]
  have hsize : p.remainingSize = 0 := h.remainingSize
  refine ⟨{ p with next := p.inputEnd + 1 }, ?_, hinput, ?_, hsize⟩
  · rw [advance, h.isEof, if_neg Bool.false_ne_true, if_pos hsize]
  · rw [inputEnd, hinput]

theorem At.advance_cons {c : Nat} (h : p.At before (unit ++ rest)) (hne : unit ++ rest ≠ [])
    (hdecode : utf8Decode (unit ++ rest) = (.ok c, rest)) :
    ∃ q, p.advance = .ok (c, q) ∧ q.Behind before unit rest := by
  have hsize : p.remainingSize ≠ 0 := by
    rw [h.remainingSize]
    exact fun h => hne (List.eq_nil_of_length_eq_zero h)
  refine ⟨{ p with current := p.next, next := p.next + (p.remainingSize - rest.length), remainingSize := rest.length },
    ?_, h.originalInput, ?_, rfl, h.next⟩
  · rw [advance, h.isEof, if_neg Bool.false_ne_true, if_neg hsize, h.remaining, hdecode]
  · simp only [h.next, h.remainingSize, List.length_append, Nat.add_sub_cancel]

theorem At.advance_error {e : Errc} {t : Bytes} (h : p.At before rest) (hne : rest ≠ [])
    (hdecode : utf8Decode rest = (.error e, t)) : p.advance = .error .invalidUrlUnit := by
  have hsize : p.remainingSize ≠ 0 := by
    rw [h.remainingSize]
    exact fun h => hne (List.eq_nil_of_length_eq_zero h)
  rw [advance, h.isEof, if_neg Bool.false_ne_true, if_neg hsize, h.remaining, hdecode]

/-! ## Views -/

theorem Behind.view (h : p.Behind before unit rest) (c : Nat) : p.view c = ⟨c, false, unit, rest, unit ++ rest⟩ := by
  have hsub : p.codepointSubstring = unit ++ rest := by
    rw [codepointSubstring, h.originalInput, h.current, List.drop_left]
  have hunit : p.encodedCodepoint = unit := by
    rw [encodedCodepoint, h.originalInput, h.current, h.next, List.drop_left, Nat.add_sub_cancel_left, List.take_left]
  have hrest : p.remaining = rest := by
    rw [UrlPointer.remaining, h.originalInput, h.next, h.remainingSize, ← List.length_append, ← List.append_assoc,
      List.drop_left, List.take_length]
  rw [UrlPointer.view, h.isEof, hsub, hunit, hrest]

/-- At the end there is no more text, and the code point that was read before is the current one. -/
theorem AtEof.view (h : p.AtEof before) (c : Nat) :
    ∃ unit substring, p.view c = ⟨c, true, unit, [], substring⟩ := by
  refine ⟨p.encodedCodepoint, p.codepointSubstring, ?_⟩
  rw [UrlPointer.view, h.isEof, UrlPointer.remaining, h.remainingSize, List.take_zero]

/-! ## Moves -/

theorem Behind.keep (h : p.Behind before unit rest) : (p.move .keep).At (before ++ unit) rest :=
  ⟨by rw [List.append_assoc]; exact h.originalInput, by rw [List.length_append]; exact h.next, h.remainingSize⟩

theorem Behind.decrease (h : p.Behind before unit rest) : (p.move .decrease).At before (unit ++ rest) := by
  refine ⟨h.originalInput, ?_, ?_⟩
  · simp only [move, UrlPointer.decrease, h.isEof, Bool.false_eq_true, if_false, h.current]
  · simp only [move, UrlPointer.decrease, h.isEof, Bool.false_eq_true, if_false, h.current, inputEnd, h.originalInput,
      List.length_append]
    omega

theorem Behind.increase {ch : UInt8} (h : p.Behind before unit (ch :: rest)) :
    (p.move .increase).At (before ++ unit ++ [ch]) rest := by
  refine ⟨?_, ?_, ?_⟩
  · simp only [move, UrlPointer.increase, h.originalInput, List.append_assoc, List.singleton_append]
  · simp only [move, UrlPointer.increase, h.next, List.length_append, List.length_singleton]
  · simp only [move, UrlPointer.increase, h.remainingSize, List.length_cons, Nat.add_sub_cancel]

theorem Behind.restart (h : p.Behind before unit rest) : (p.move .restart).At [] (before ++ (unit ++ rest)) := by
  refine ⟨?_, rfl, ?_⟩
  · simp only [move, UrlPointer.restart, h.originalInput, List.nil_append]
  · simp only [move, UrlPointer.restart, h.originalInput]

theorem Behind.back {buffer : Bytes} (h : p.Behind (before ++ buffer) unit rest) :
    (p.move (.decreaseByBytesPlus1Codepoint buffer.length)).At before (buffer ++ (unit ++ rest)) := by
  refine ⟨?_, ?_, ?_⟩
  · simp only [move, decreaseByBytesPlus1Codepoint, h.isEof, Bool.false_eq_true, if_false, UrlPointer.decrease,
      h.originalInput, List.append_assoc]
  · simp only [move, decreaseByBytesPlus1Codepoint, h.isEof, Bool.false_eq_true, if_false, UrlPointer.decrease, h.current,
      List.length_append, Nat.add_sub_cancel]
  · simp only [move, decreaseByBytesPlus1Codepoint, h.isEof, Bool.false_eq_true, if_false, UrlPointer.decrease, h.current,
      inputEnd, h.originalInput, List.length_append]
    omega

theorem AtEof.decrease (h : p.AtEof before) : (p.move .decrease).At before [] := by
  refine ⟨?_, ?_, ?_⟩
  · simp only [move, UrlPointer.decrease, h.originalInput, List.append_nil]
  · simp only [move, UrlPointer.decrease, h.isEof, if_true, inputEnd, h.originalInput]
  · simp only [move, UrlPointer.decrease, h.isEof, if_true, inputEnd, h.originalInput, Nat.sub_self, List.length_nil]

theorem AtEof.restart (h : p.AtEof before) : (p.move .restart).At [] before := by
  refine ⟨?_, rfl, ?_⟩
  · simp only [move, UrlPointer.restart, h.originalInput, List.nil_append]
  · simp only [move, UrlPointer.restart, h.originalInput]

theorem AtEof.back {buffer : Bytes} (h : p.AtEof (before ++ buffer)) :
    (p.move (.decreaseByBytesPlus1Codepoint buffer.length)).At before buffer := by
  refine ⟨?_, ?_, ?_⟩
  · simp only [move, decreaseByBytesPlus1Codepoint, h.isEof, if_true, h.originalInput]
  · simp only [move, decreaseByBytesPlus1Codepoint, h.isEof, if_true, inputEnd, h.originalInput, List.length_append,
      Nat.add_sub_cancel]
  · simp only [move, decreaseByBytesPlus1Codepoint, h.isEof, if_true, h.remainingSize, Nat.zero_add]

end UrlPointer

/-- What a state sees: the code point `unit` in front of `rest`, or the end. -/
inductive View.Shows : View → Bytes → Bytes → Prop where
  | eof {unit substring : Bytes} : Shows ⟨0, true, unit, [], substring⟩ [] []
  | codepoint {c : Nat} {rest : Bytes} (hvalid : isValidCodepoint c = true) :
      Shows ⟨c, false, utf8Encode c, rest, utf8Encode c ++ rest⟩ (utf8Encode c) rest

/-- A predicate of the state, the record, the context and the two texts. -/
abbrev Invariant := ParseState → UrlRecord → UrlParseContext → Bytes → Bytes → Prop

/-- A turn leads to where `I` holds, or at the end to a record of which `F` holds. -/
def Turn.Leads (I : Invariant) (F : UrlRecord → Prop) (before unit rest : Bytes) (isEof : Bool) (t : Turn) : Prop :=
  match t.move with
  | .keep => if isEof then F (finish t.url t.ctx) else I t.state t.url t.ctx (before ++ unit) rest
  | .decrease => I t.state t.url t.ctx before (unit ++ rest)
  | .increase => ∃ ch tail, rest = ch :: tail ∧ I t.state t.url t.ctx (before ++ unit ++ [ch]) tail
  | .restart => I t.state t.url t.ctx [] (before ++ (unit ++ rest))
  | .decreaseByBytesPlus1Codepoint nbytes =>
    ∃ front buffer, before = front ++ buffer ∧ buffer.length = nbytes ∧
      I t.state t.url t.ctx front (buffer ++ (unit ++ rest))

/-- Each state keeps the invariant in the given input. -/
def Invariant.Kept (base : Option UrlRecord) (input : Bytes) (I : Invariant) (F : UrlRecord → Prop) : Prop :=
  ∀ state url ctx before unit rest v turn, before ++ (unit ++ rest) = input → I state url ctx before (unit ++ rest) →
    v.Shows unit rest → runState v base url ctx state = .ok turn → turn.Leads I F before unit rest v.isEof

/-- The invariant holds where the pointer is. -/
def Config.Holds (input : Bytes) (I : Invariant) (s : Config) : Prop :=
  ∃ before rest, before ++ rest = input ∧ s.pointer.At before rest ∧ I s.state s.url s.ctx before rest

variable {base : Option UrlRecord} {input : Bytes} {s : Config} {I : Invariant} {F : UrlRecord → Prop}

/-- The pointer goes on to a view of the text. -/
theorem UrlPointer.At.advance {p q : UrlPointer} {c : Nat} {before rest : Bytes} (h : p.At before rest)
    (hadvance : p.advance = .ok (c, q)) :
    (rest = [] ∧ c = 0 ∧ q.AtEof before ∧ (q.view c).Shows [] []) ∨
      ∃ unit tail, rest = unit ++ tail ∧ q.Behind before unit tail ∧ (q.view c).Shows unit tail := by
  cases rest with
  | nil =>
      obtain ⟨q', hq', heof⟩ := h.advance_nil
      rw [hadvance] at hq'
      cases hq'
      obtain ⟨unit, substring, hview⟩ := heof.view 0
      exact .inl ⟨rfl, rfl, heof, hview ▸ .eof⟩
  | cons b rest =>
      cases hdecode : utf8Decode (b :: rest) with
      | mk r tail =>
          cases r with
          | error e =>
              rw [h.advance_error (List.cons_ne_nil _ _) hdecode] at hadvance
              cases hadvance
          | ok c' =>
              obtain ⟨-, -, -, -, -, -, hvalid, -⟩ := utf8Decode_ok hdecode
              have htext := utf8Encode_of_decode hdecode
              rw [htext] at h hdecode ⊢
              have hne : utf8Encode c' ++ tail ≠ [] := htext ▸ List.cons_ne_nil _ _
              obtain ⟨q', hq', hbehind⟩ := h.advance_cons hne hdecode
              rw [hadvance] at hq'
              cases hq'
              exact .inr ⟨_, tail, rfl, hbehind, hbehind.view c ▸ .codepoint hvalid⟩

/-- Where a turn leads. -/
theorem Turn.Leads.next {t : Turn} {q : UrlPointer} {before unit rest : Bytes}
    (h : t.Leads I F before unit rest false) (hq : q.Behind before unit rest) :
    (q.move t.move).isEof = false ∧
      Config.Holds (before ++ (unit ++ rest)) I ⟨t.state, t.url, t.ctx, q.move t.move⟩ := by
  obtain ⟨state, url, ctx, move⟩ := t
  have hat {before' rest' : Bytes} (hat : (q.move move).At before' rest')
      (hinput : before' ++ rest' = before ++ (unit ++ rest)) (hI : I state url ctx before' rest') :
      (q.move move).isEof = false ∧ Config.Holds (before ++ (unit ++ rest)) I ⟨state, url, ctx, q.move move⟩ :=
    ⟨hat.isEof, _, _, hinput, hat, hI⟩
  cases move with
  | keep => exact hat hq.keep (List.append_assoc _ _ _) h
  | decrease => exact hat hq.decrease rfl h
  | increase =>
      obtain ⟨ch, tail, rfl, h⟩ := h
      exact hat hq.increase (by simp only [List.append_assoc, List.singleton_append]) h
  | restart => exact hat hq.restart (List.nil_append _) h
  | decreaseByBytesPlus1Codepoint nbytes =>
      obtain ⟨front, buffer, rfl, rfl, h⟩ := h
      exact hat hq.back (List.append_assoc _ _ _).symm h

theorem Turn.Leads.next_eof {t : Turn} {q : UrlPointer} {before : Bytes} (h : t.Leads I F before [] [] true)
    (hq : q.AtEof before) :
    ((q.move t.move).isEof = true ∧ F (finish t.url t.ctx)) ∨
      ((q.move t.move).isEof = false ∧ Config.Holds before I ⟨t.state, t.url, t.ctx, q.move t.move⟩) := by
  obtain ⟨state, url, ctx, move⟩ := t
  have hat {before' rest' : Bytes} (hat : (q.move move).At before' rest') (hinput : before' ++ rest' = before)
      (hI : I state url ctx before' rest') :
      (q.move move).isEof = false ∧ Config.Holds before I ⟨state, url, ctx, q.move move⟩ :=
    ⟨hat.isEof, _, _, hinput, hat, hI⟩
  cases move with
  | keep => exact .inl ⟨hq.isEof, h⟩
  | decrease => exact .inr (hat hq.decrease (List.append_nil _) h)
  | increase =>
      obtain ⟨ch, tail, hnil, -⟩ := h
      cases hnil
  | restart =>
      simp only [Turn.Leads, List.append_nil] at h
      exact .inr (hat hq.restart (List.nil_append _) h)
  | decreaseByBytesPlus1Codepoint nbytes =>
      obtain ⟨front, buffer, rfl, rfl, h⟩ := h
      rw [List.append_nil, List.append_nil] at h
      exact .inr (hat hq.back rfl h)

theorem pass_of_turn {c : Nat} {q : UrlPointer} {turn : Turn} (hadvance : s.pointer.advance = .ok (c, q))
    (hrun : runState (q.view c) base s.url s.ctx s.state = .ok turn) :
    pass base s =
      if (q.move turn.move).isEof then .done (.ok (finish turn.url turn.ctx))
      else .next ⟨turn.state, turn.url, turn.ctx, q.move turn.move⟩ := by
  simp only [pass, hadvance, hrun]

/-- A pass that is no error is a turn. -/
theorem exists_turn (h : ∀ e, pass base s ≠ .done (.error e)) :
    ∃ c q turn, s.pointer.advance = .ok (c, q) ∧ runState (q.view c) base s.url s.ctx s.state = .ok turn := by
  cases hadvance : s.pointer.advance with
  | error e => exact absurd (by simp only [pass, hadvance]) (h e)
  | ok r =>
      cases hrun : runState (r.2.view r.1) base s.url s.ctx s.state with
      | error e => exact absurd (by simp only [pass, hadvance, hrun]) (h e)
      | ok turn => exact ⟨r.1, r.2, turn, rfl, hrun⟩

/-- What a pass does to what holds. -/
theorem pass_holds (hkept : Invariant.Kept base input I F) (h : s.Holds input I) :
    (∃ e, pass base s = .done (.error e)) ∨ (∃ t, pass base s = .next t ∧ t.Holds input I) ∨
      ∃ url, pass base s = .done (.ok url) ∧ F url := by
  by_cases herror : ∃ e, pass base s = .done (.error e)
  · exact .inl herror
  refine .inr ?_
  obtain ⟨before, rest, rfl, hat, hI⟩ := h
  obtain ⟨c, q, turn, hadvance, hrun⟩ := exists_turn fun e he => herror ⟨e, he⟩
  rw [pass_of_turn hadvance hrun]
  rcases hat.advance hadvance with ⟨rfl, rfl, heof, hshows⟩ | ⟨unit, tail, rfl, hbehind, hshows⟩
  · have hleads := hkept _ _ _ _ _ _ _ _ rfl hI hshows hrun
    rw [show (q.view 0).isEof = true from heof.isEof] at hleads
    rcases hleads.next_eof heof with ⟨hend, hF⟩ | ⟨hend, hholds⟩
    · rw [if_pos hend]
      exact .inr ⟨_, rfl, hF⟩
    · rw [hend, if_neg Bool.false_ne_true, List.append_nil]
      exact .inl ⟨_, rfl, hholds⟩
  · have hleads := hkept _ _ _ _ _ _ _ _ rfl hI hshows hrun
    rw [show (q.view c).isEof = false from hbehind.isEof] at hleads
    obtain ⟨hend, hholds⟩ := hleads.next hbehind
    rw [hend, if_neg Bool.false_ne_true]
    exact .inl ⟨_, rfl, hholds⟩

/-- What the states keep holds in every pass. -/
theorem visits_holds {t : Config} (hkept : Invariant.Kept base input I F) (h : Lib.Visits (pass base) s t)
    (hs : s.Holds input I) : t.Holds input I :=
  h.preserves (fun u v _ hu hnext => by
    rcases pass_holds hkept hu with ⟨e, herror⟩ | ⟨v', hnext', hv⟩ | ⟨url, hdone, -⟩
    · rw [herror] at hnext
      cases hnext
    · rw [hnext'] at hnext
      cases hnext
      exact hv
    · rw [hdone] at hnext
      cases hnext) hs

theorem Parses.holds {url : UrlRecord} (hkept : Invariant.Kept base (ownedInput input) I F)
    (hinit : I .schemeStart {} {} [] (ownedInput input)) (h : Parses base input (.ok url)) : F url := by
  obtain ⟨t, hvisits, hdone⟩ := Lib.Returns.exists_last h
  have hs : (Config.initial input).Holds (ownedInput input) I :=
    ⟨[], _, rfl, UrlPointer.at_ofInput _, hinit⟩
  rcases pass_holds hkept (visits_holds hkept hvisits hs) with ⟨e, herror⟩ | ⟨u, hnext, -⟩ | ⟨url', hdone', hF⟩
  · rw [herror] at hdone
    cases hdone
  · rw [hnext] at hdone
    cases hdone
  · rw [hdone'] at hdone
    cases hdone
    exact hF

end Rad.Url
