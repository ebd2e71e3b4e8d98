import Rad.Http.Lemmas.Chunks
import Rad.Http.ParserTheorems

/-!
# Parsers of messages, call by call

A parser that has read a part of a message goes on as if it were given the message as a whole.
-/

namespace Rad.Http

open Lib

/-- The same, up to the text behind an error. -/
structure ParseState.Agrees {κ μ : Type} (r r' : ParseState κ μ) : Prop where
  parser : r.parser = r'.parser
  ec : r.ec = r'.ec
  input : r.ec = none → r.input = r'.input

namespace ParseState.Agrees

variable {κ μ : Type} {r r' r'' : ParseState κ μ}

theorem refl (r : ParseState κ μ) : r.Agrees r := ⟨rfl, rfl, fun _ => rfl⟩

theorem symm (h : r.Agrees r') : r'.Agrees r :=
  ⟨h.parser.symm, h.ec.symm, fun hnone => (h.input (h.ec.trans hnone)).symm⟩

theorem eq_of_none (h : r.Agrees r') (hnone : r.ec = none) : r = r' := by
  obtain ⟨p, input, ec⟩ := r
  obtain ⟨p', input', ec'⟩ := r'
  obtain ⟨rfl, rfl, hinput⟩ := h
  obtain rfl := hinput hnone
  rfl

end ParseState.Agrees

namespace MessageFormat

variable {κ μ : Type} {format : MessageFormat κ μ}

/-- How a call of `parse` on a text goes on when there is more behind the text. -/
inductive Continues (format : MessageFormat κ μ) (p : IncrementalParser κ μ) (t : Bytes) (r : ParseState κ μ) :
    Prop where
  | fails {e : Error} (hec : r.ec = some e) (hmore : ∀ u, ∃ r', format.Parses p (t ++ u) r' ∧ r'.ec = some e)
  | ends (hec : r.ec = none) (hdone : r.parser.done = true)
      (hmore : ∀ u, format.Parses p (t ++ u) ⟨r.parser, r.input ++ u, none⟩)
  | goesOn (hec : r.ec = none) (hdone : r.parser.done = false) (hinput : r.input = [])
      (hmore : ∀ u r', format.Parses r.parser u r' → ∃ r'', format.Parses p (t ++ u) r'' ∧ r'.Agrees r'')
      (hless : ∀ u r', format.Parses p (t ++ u) r' → ∃ r'', format.Parses r.parser u r'' ∧ r''.Agrees r')

theorem Parses.unique {p : IncrementalParser κ μ} {t : Bytes} {r r' : ParseState κ μ} (h : format.Parses p t r)
    (h' : format.Parses p t r') : r = r' := by
  obtain ⟨out, stage⟩ := p
  cases stage with
  | done => exact Eq.trans h (Eq.symm h')
  | error e => exact Eq.trans h (Eq.symm h')
  | line ctx => exact Returns.unique h h'
  | headers ctx => exact Returns.unique h h'

/-- The pass behind an error. -/
theorem returns_error {p : IncrementalParser κ μ} {t : Bytes} {e : Error} {r : ParseState κ μ} :
    Returns format.pass ⟨p, t, some e⟩ r ↔ r = ⟨{ p with stage := .error e }, t, some e⟩ := by
  have hpass : format.pass ⟨p, t, some e⟩ = .done ⟨{ p with stage := .error e }, t, some e⟩ := by
    rw [pass, if_pos (.inr (.inr (.inr (by simp))))]
  refine ⟨fun h => h.unique (.done hpass), ?_⟩
  rintro rfl
  exact .done hpass

/-- The pass behind the end of the text. -/
theorem returns_nil {p : IncrementalParser κ μ} {r : ParseState κ μ} :
    Returns format.pass ⟨p, [], none⟩ r ↔ r = ⟨p, [], none⟩ := by
  have hpass : format.pass ⟨p, [], none⟩ = .done ⟨p, [], none⟩ := by rw [pass, if_pos (.inl rfl)]
  refine ⟨fun h => h.unique (.done hpass), ?_⟩
  rintro rfl
  exact .done hpass

theorem returns_done {out : μ} {t : Bytes} {r : ParseState κ μ} :
    Returns format.pass ⟨⟨out, .done⟩, t, none⟩ r ↔ r = ⟨⟨out, .done⟩, t, none⟩ := by
  have hpass : format.pass ⟨⟨out, .done⟩, t, none⟩ = .done ⟨⟨out, .done⟩, t, none⟩ := by
    rw [pass, if_pos (.inr (.inl rfl))]
  refine ⟨fun h => h.unique (.done hpass), ?_⟩
  rintro rfl
  exact .done hpass

theorem returns_of_next {s t : ParseState κ μ} (h : format.pass s = .next t) {r : ParseState κ μ} :
    Returns format.pass s r ↔ Returns format.pass t r := by
  refine ⟨fun hr => ?_, .next h⟩
  cases hr with
  | done hdone => rw [h] at hdone; cases hdone
  | next hnext ht => rw [h] at hnext; cases hnext; exact ht

/-! ## The headers -/

/-- What `parse` comes to behind a call of the parser of headers. -/
def headersEnd (o : Outcome (ParseHeadersContext × μ) UInt8 Error) : ParseState κ μ :=
  match o.error with
  | some e => ⟨⟨o.state.2, .error e⟩, o.rest, some e⟩
  | none => ⟨⟨o.state.2, if o.state.1.stage = .done then .done else .headers o.state.1⟩, o.rest, none⟩

theorem headersEnd_agrees {o o' : Outcome (ParseHeadersContext × μ) UInt8 Error} (h : o.Agrees o') :
    (headersEnd o : ParseState κ μ).Agrees (headersEnd o') := by
  obtain ⟨s, rest, e⟩ := o
  obtain ⟨s', rest', e'⟩ := o'
  obtain ⟨rfl, rfl, hrest⟩ := h
  cases e with
  | some e => exact ⟨rfl, rfl, nofun⟩
  | none => exact ⟨rfl, rfl, fun _ => hrest rfl⟩

theorem returns_headers_iff {out : μ} {ctx : ParseHeadersContext} {t : Bytes} {r : ParseState κ μ} (hne : t ≠ []) :
    Returns format.pass ⟨⟨out, .headers ctx⟩, t, none⟩ r ↔
      r = headersEnd (parseHeaders (some format.insertHeader) ctx out t) := by
  rw [returns_of_next (pass_headers hne)]
  have hall := (parseHeaders_parses (some format.insertHeader)).all (s := (ctx, out)) (t := t)
  dsimp only at hall ⊢
  generalize parseHeaders (some format.insertHeader) ctx out t = o at hall
  obtain ⟨⟨ctx', out'⟩, rest, e⟩ := o
  cases e with
  | some e => exact returns_error
  | none =>
      by_cases hdone : ctx'.stage = .done
      · simp only [headersEnd, hdone, if_true]
        exact returns_done
      · obtain rfl : rest = [] := (hall rfl).resolve_right hdone
        simp only [headersEnd, hdone, if_false]
        exact returns_nil

theorem continues_nil {p : IncrementalParser κ μ} (hdone : p.done = false) : Continues format p [] ⟨p, [], none⟩ :=
  .goesOn rfl hdone rfl (fun _ r' h => ⟨r', h, .refl _⟩) fun _ r' h => ⟨r', h, .refl _⟩

/-- A call on headers. -/
theorem headers_continues {out : μ} {ctx : ParseHeadersContext} {t : Bytes} {r : ParseState κ μ}
    (hr : Returns format.pass ⟨⟨out, .headers ctx⟩, t, none⟩ r) : Continues format ⟨out, .headers ctx⟩ t r := by
  by_cases hne : t = []
  · subst hne
    obtain rfl := returns_nil.1 hr
    exact continues_nil rfl
  obtain rfl := (returns_headers_iff hne).1 hr
  have hparses := parseHeaders_parses (some format.insertHeader)
  have happend (u : Bytes) : t ++ u ≠ [] := List.append_ne_nil_of_left_ne_nil hne u
  cases herror : (parseHeaders (some format.insertHeader) ctx out t).error with
  | some e =>
      have hfails := hparses.incremental.append_error (s := (ctx, out)) (hparses.lasting (s := (ctx, out)) herror)
      refine .fails (e := e) (by simp [headersEnd, herror]) fun u => ⟨_, (returns_headers_iff (happend u)).2 rfl, ?_⟩
      have := (hfails u).2
      dsimp only at this
      simp [headersEnd, this]
  | none =>
  by_cases hend : (parseHeaders (some format.insertHeader) ctx out t).state.1.stage = .done
  · have hends := hparses.incremental.append_done (s := (ctx, out)) (hparses.done hend)
    refine .ends (by simp [headersEnd, herror]) (by simp [headersEnd, herror, hend, IncrementalParser.done]) fun u =>
      (returns_headers_iff (happend u)).2 ?_
    have := hends u
    dsimp only at this
    simp [headersEnd, this, hend, herror]
  · have hrest := (hparses.all (s := (ctx, out)) herror).resolve_right hend
    have hmore := hparses.incremental.append_rest (s := (ctx, out)) hrest
    dsimp only at hrest hmore
    have hparser : (headersEnd (parseHeaders (some format.insertHeader) ctx out t) : ParseState κ μ) =
        ⟨⟨(parseHeaders (some format.insertHeader) ctx out t).state.2,
          .headers (parseHeaders (some format.insertHeader) ctx out t).state.1⟩, [], none⟩ := by
      simp [headersEnd, hend, herror, hrest]
    have hagain {r' : ParseState κ μ} :
        Returns format.pass ⟨⟨(parseHeaders (some format.insertHeader) ctx out t).state.2,
          .headers (parseHeaders (some format.insertHeader) ctx out t).state.1⟩, [], none⟩ r' ↔
        Returns format.pass ⟨⟨out, .headers ctx⟩, t, none⟩ r' := by
      rw [returns_nil, returns_headers_iff hne, hparser]
    rw [hparser]
    refine .goesOn rfl rfl rfl (fun u r' h => ?_) fun u r' h => ?_
    · by_cases hu : u = []
      · subst hu
        rw [List.append_nil]
        exact ⟨r', hagain.1 h, .refl _⟩
      · obtain rfl := (returns_headers_iff hu).1 h
        exact ⟨_, (returns_headers_iff (happend u)).2 rfl, (headersEnd_agrees (hmore u)).symm⟩
    · by_cases hu : u = []
      · subst hu
        rw [List.append_nil] at h
        exact ⟨r', hagain.2 h, .refl _⟩
      · obtain rfl := (returns_headers_iff (happend u)).1 h
        exact ⟨_, (returns_headers_iff hu).2 rfl, (headersEnd_agrees (hmore u)).symm⟩

/-! ## The line -/

/-- What the loop comes to behind a call of the parser of the line. -/
def lineEnd (format : MessageFormat κ μ) (out : μ) (o : Outcome κ UInt8 Error) : ParseState κ μ :=
  ⟨if format.lineDone o.state then ⟨format.takeLine o.state out, .headers {}⟩ else ⟨out, .line o.state⟩, o.rest,
    o.error⟩

theorem returns_line_iff {out : μ} {ctx : κ} {t : Bytes} {r : ParseState κ μ} (hne : t ≠ []) :
    Returns format.pass ⟨⟨out, .line ctx⟩, t, none⟩ r ↔
      Returns format.pass (lineEnd format out (format.parseLine ctx t)) r := returns_of_next (pass_line hne)

/-- What a format needs for its calls to go on. -/
structure InPieces (format : MessageFormat κ μ) : Prop where
  incremental : Incremental format.parseLine
  lasting {ctx : κ} {t : Bytes} {e : Error} (h : (format.parseLine ctx t).error = some e) (u : Bytes) :
    (format.parseLine (format.parseLine ctx t).state u).state = (format.parseLine ctx t).state ∧
      (format.parseLine (format.parseLine ctx t).state u).error = some e
  done {ctx : κ} (h : format.lineDone ctx = true) (u : Bytes) : format.parseLine ctx u = ⟨ctx, u, none⟩
  /-- Where `parse` returns, the parser of the line leaves nothing. -/
  all {out : μ} {ctx : κ} {t : Bytes} (h : ∃ r, format.Parses ⟨out, .line ctx⟩ t r)
    (herror : (format.parseLine ctx t).error = none) (hdone : format.lineDone (format.parseLine ctx t).state = false) :
    (format.parseLine ctx t).rest = []

/-- A call on the line. -/
theorem line_continues (hformat : InPieces format) {out : μ} {ctx : κ} {t : Bytes} {r : ParseState κ μ}
    (hr : Returns format.pass ⟨⟨out, .line ctx⟩, t, none⟩ r) : Continues format ⟨out, .line ctx⟩ t r := by
  by_cases hne : t = []
  · subst hne
    obtain rfl := returns_nil.1 hr
    exact continues_nil rfl
  have hreturns : ∃ r, format.Parses ⟨out, .line ctx⟩ t r := ⟨r, hr⟩
  have happend (u : Bytes) : t ++ u ≠ [] := List.append_ne_nil_of_left_ne_nil hne u
  rw [returns_line_iff hne] at hr
  cases herror : (format.parseLine ctx t).error with
  | some e =>
      rw [lineEnd, herror, returns_error] at hr
      subst hr
      refine .fails rfl fun u => ?_
      have hfails := (hformat.incremental.append_error (hformat.lasting herror) u).2
      have hend : Returns format.pass ⟨(lineEnd format out (format.parseLine ctx (t ++ u))).parser,
        (format.parseLine ctx (t ++ u)).rest, some e⟩ _ := returns_error.2 rfl
      exact ⟨_, (returns_line_iff (happend u)).2 (by rw [lineEnd, hfails]; exact hend), rfl⟩
  | none =>
  cases hdone : format.lineDone (format.parseLine ctx t).state with
  | true =>
      rw [lineEnd, herror, if_pos hdone] at hr
      have hmore (u : Bytes) {r' : ParseState κ μ} : format.Parses ⟨out, .line ctx⟩ (t ++ u) r' ↔
          format.Parses ⟨format.takeLine (format.parseLine ctx t).state out, .headers {}⟩
            ((format.parseLine ctx t).rest ++ u) r' := by
        refine (returns_line_iff (happend u)).trans ?_
        rw [hformat.incremental.append_done (hformat.done hdone), lineEnd, if_pos hdone]
        rfl
      cases headers_continues hr with
      | fails hec hfails => exact .fails hec fun u => (hfails u).imp fun r' h => ⟨(hmore u).2 h.1, h.2⟩
      | ends hec hend hends => exact .ends hec hend fun u => (hmore u).2 (hends u)
      | goesOn hec hend hinput hlonger hshorter =>
          exact .goesOn hec hend hinput (fun u r' h => (hlonger u r' h).imp fun r'' h' => ⟨(hmore u).2 h'.1, h'.2⟩)
            fun u r' h => hshorter u r' ((hmore u).1 h)
  | false =>
      have hrest := hformat.all hreturns herror hdone
      have hagrees := hformat.incremental.append_rest hrest
      rw [lineEnd, herror, hdone, hrest, if_neg (by simp), returns_nil] at hr
      subst hr
      have hagain {r' : ParseState κ μ} : format.Parses ⟨out, .line (format.parseLine ctx t).state⟩ [] r' ↔
          format.Parses ⟨out, .line ctx⟩ t r' := by
        refine returns_nil.trans ((returns_line_iff hne).trans ?_).symm
        rw [lineEnd, herror, hdone, hrest, if_neg (by simp), returns_nil]
      -- both calls come to the same state, or to the same error
      have hsame {o o' : Outcome κ UInt8 Error} (h : o.Agrees o') {r' : ParseState κ μ}
          (hr : Returns format.pass (lineEnd format out o) r') :
          ∃ r'', Returns format.pass (lineEnd format out o') r'' ∧ r'.Agrees r'' := by
        cases ho : o.error with
        | none =>
            rw [h.eq_of_none (h.error ▸ ho)] at hr
            exact ⟨r', hr, .refl _⟩
        | some e =>
            rw [lineEnd, ho, returns_error] at hr
            subst hr
            have hend : Returns format.pass ⟨(lineEnd format out o').parser, o'.rest, some e⟩ _ := returns_error.2 rfl
            refine ⟨_, by rw [lineEnd, ← h.error, ho]; exact hend, ?_⟩
            rw [lineEnd, h.state]
            exact ⟨rfl, rfl, nofun⟩
      refine .goesOn rfl rfl rfl (fun u r' h => ?_) fun u r' h => ?_
      · by_cases hu : u = []
        · subst hu
          rw [List.append_nil]
          exact ⟨r', hagain.1 h, .refl _⟩
        · obtain ⟨r'', hr'', hagree⟩ := hsame (hagrees u).symm ((returns_line_iff hu).1 h)
          exact ⟨r'', (returns_line_iff (happend u)).2 hr'', hagree⟩
      · by_cases hu : u = []
        · subst hu
          rw [List.append_nil] at h
          exact ⟨r', hagain.2 h, .refl _⟩
        · obtain ⟨r'', hr'', hagree⟩ := hsame (hagrees u) ((returns_line_iff (happend u)).1 h)
          exact ⟨r'', (returns_line_iff hu).2 hr'', hagree.symm⟩

/-- A call of `parse` that returns. -/
theorem parses_continues (hformat : InPieces format) {p : IncrementalParser κ μ} {t : Bytes} {r : ParseState κ μ}
    (hr : format.Parses p t r) : Continues format p t r := by
  obtain ⟨out, stage⟩ := p
  cases stage with
  | done =>
      obtain rfl : r = _ := hr
      exact .ends rfl rfl fun u => rfl
  | error e =>
      obtain rfl : r = _ := hr
      exact .fails rfl fun u => ⟨_, rfl, rfl⟩
  | line ctx => exact line_continues hformat hr
  | headers ctx => exact headers_continues hr

end MessageFormat

theorem responseFormat_inPieces : MessageFormat.InPieces responseFormat where
  incremental := parseStatusLine_incremental
  lasting {ctx t e} h u := @Machine.parse_lasting _ _ _ statusLineMachine ParseStatusLineContext.lastError
    ParseStatusLineContext.failWith (fun _ => rfl) ctx t e h u
  done {ctx} h u := by
    have hstage : ctx.stage = .done := by simpa [responseFormat] using h
    refine (Machine.parse_stop (fun ch tail => ?_) u).trans (by simp [ParseStatusLineContext.lastError, hstage])
    change statusLineTurn ctx ch tail = _
    simp only [statusLineTurn, hstage]
  all {out ctx t} h herror hdone := by
    by_contra hrest
    refine (responseParse_iff ⟨out, .line ctx⟩ t).1 h ((statusLine_ends ctx t).2 ⟨herror, hrest, ?_⟩)
    simpa [responseFormat] using hdone

end Rad.Http
