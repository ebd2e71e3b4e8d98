import Rad.Http.Lemmas.FieldLines
import Rad.Http.Lemmas.Headers
import Rad.Http.Lemmas.Serialization
import Rad.Http.LineTheorems
import Rad.Http.Lemmas.Waits

/-!
# When the parsers of messages return

The parser of a line leaves the beginning of a token in the buffer. The loop around it goes on as long as the buffer is not
empty, and so never ends there.
-/

namespace Rad.Http

open Lib

/-! ## The parsers of lines and headers -/

theorem requestLine_ends (ctx : ParseRequestLineContext) (t : Bytes) :
    ctx.EndsInToken t ↔ (parseRequestLine ctx t).error = none ∧ (parseRequestLine ctx t).rest ≠ [] ∧
      ¬(parseRequestLine ctx t).state.stage = .done := by
  refine requestLine_waits.parse_iff (fun ctx ch tail => (requestLineTurn_keeps ctx ch tail).lastError)
    (fun ctx t h hends => ?_) ctx t
  cases hstage : ctx.stage with
  | error e => simp [ParseRequestLineContext.EndsInToken, hstage] at hends
  | _ => simp [ParseRequestLineContext.lastError, hstage] at h

theorem statusLine_ends (ctx : ParseStatusLineContext) (t : Bytes) :
    ctx.EndsInToken t ↔ (parseStatusLine ctx t).error = none ∧ (parseStatusLine ctx t).rest ≠ [] ∧
      ¬(parseStatusLine ctx t).state.stage = .done := by
  refine statusLine_waits.parse_iff (fun ctx ch tail => (statusLineTurn_keeps ctx ch tail).lastError)
    (fun ctx t h hends => ?_) ctx t
  cases hstage : ctx.stage with
  | error e => simp [ParseStatusLineContext.EndsInToken, hstage] at hends
  | _ => simp [ParseStatusLineContext.lastError, hstage] at h

theorem headers_waits {η : Type*} (onHeader : HeaderCallback η) :
    (headersMachine onHeader).Waits (fun s => s.1.stage = .done ∨ s.1.lastError ≠ none) fun _ _ => False where
  nil _ := id
  turn s ch tail := by
    obtain ⟨ctx, env⟩ := s
    change False ↔ (headersTurn onHeader (ctx, env) ch tail).Waits _ _
    refine iff_of_false id ?_
    cases hstage : ctx.stage with
    | nameAndColon =>
        simp only [headersTurn, hstage]
        split
        · exact id
        split
        · exact id
        · exact fun h => h.1 rfl
        split
        · exact id
        split <;> exact id
    | ows next =>
        simp only [headersTurn, hstage]
        split
        · exact fun h => h.1 rfl
        split
        · split <;> exact id
        · exact id
    | value =>
        simp only [headersTurn, hstage]
        split
        · exact id
        · exact fun h => h.1 rfl
        split <;> exact id
    | cr =>
        simp only [headersTurn, hstage]
        split <;> exact id
    | lf =>
        simp only [headersTurn, hstage]
        split <;> exact id
    | terminatingLf =>
        simp only [headersTurn, hstage]
        split <;> exact id
    | done =>
        simp only [headersTurn, hstage]
        exact fun h => h.2 (.inl hstage)
    | error e =>
        simp only [headersTurn, hstage]
        refine fun h => h.2 (.inr ?_)
        simp [ParseHeadersContext.lastError, hstage]

/-- The parser of headers leaves nothing, unless it is done. -/
theorem parseHeaders_ends {η : Type*} (onHeader : HeaderCallback η) (ctx : ParseHeadersContext) (env : η) (t : Bytes)
    (herror : (parseHeaders onHeader ctx env t).error = none) :
    (parseHeaders onHeader ctx env t).rest = [] ∨ (parseHeaders onHeader ctx env t).state.1.stage = .done := by
  by_contra h
  obtain ⟨hrest, hdone⟩ := not_or.1 h
  have hkeeps := fun s ch tail => (headersTurn_keeps onHeader s ch tail).lastError
  exact ((headers_waits onHeader).parse_iff hkeeps (fun _ _ _ => id) (ctx, env) t).2 ⟨herror, hrest, hdone⟩

/-! ## The loop -/

namespace MessageFormat

variable {κ μ : Type} {format : MessageFormat κ μ}

theorem pass_exit {s : ParseState κ μ} (h : s.input = [] ∨ s.parser.done ∨ s.parser.hasError ∨ s.ec ≠ none) :
    ∃ r, Returns format.pass s r := by
  cases hec : s.ec with
  | none => exact ⟨_, .done (by rw [pass, if_pos h, hec])⟩
  | some e => exact ⟨_, .done (by rw [pass, if_pos h, hec])⟩

theorem returns_next {s t : ParseState κ μ} (h : format.pass s = .next t) (ht : ∃ r, Returns format.pass t r) :
    ∃ r, Returns format.pass s r := by
  obtain ⟨r, hr⟩ := ht
  exact ⟨r, .next h hr⟩

theorem pass_line {out : μ} {ctx : κ} {input : Bytes} (h : input ≠ []) :
    format.pass ⟨⟨out, .line ctx⟩, input, none⟩ =
      let o := format.parseLine ctx input
      .next ⟨if format.lineDone o.state then ⟨format.takeLine o.state out, .headers {}⟩ else ⟨out, .line o.state⟩, o.rest,
        o.error⟩ := by
  rw [pass, if_neg]
  simp [h, IncrementalParser.done, IncrementalParser.hasError, IncrementalParser.lastError]

theorem pass_headers {out : μ} {ctx : ParseHeadersContext} {input : Bytes} (h : input ≠ []) :
    format.pass ⟨⟨out, .headers ctx⟩, input, none⟩ =
      let o := parseHeaders (some format.insertHeader) ctx out input
      .next ⟨⟨o.state.2, if o.state.1.stage = .done then .done else .headers o.state.1⟩, o.rest, o.error⟩ := by
  rw [pass, if_neg]
  simp [h, IncrementalParser.done, IncrementalParser.hasError, IncrementalParser.lastError]

theorem returns_headers {out : μ} {ctx : ParseHeadersContext} {input : Bytes} {ec : Option Error} :
    ∃ r, Returns format.pass ⟨⟨out, .headers ctx⟩, input, ec⟩ r := by
  by_cases hinput : input = []
  · exact pass_exit (.inl hinput)
  cases ec with
  | some e => exact pass_exit (.inr (.inr (.inr nofun)))
  | none =>
      -- the pass behind this one finds the loop ended
      refine returns_next (pass_headers hinput) (pass_exit ?_)
      cases herror : (parseHeaders (some format.insertHeader) ctx out input).error with
      | some e => exact .inr (.inr (.inr nofun))
      | none =>
          rcases parseHeaders_ends _ _ _ _ herror with hrest | hdone
          · exact .inl hrest
          · rw [if_pos hdone]
            exact .inr (.inl rfl)

/-- Where the parser of the line leaves the beginning of a token, `parse` does not return, and it returns everywhere else. -/
theorem parses_iff {ends : κ → Bytes → Prop} (hincremental : Incremental format.parseLine) (hnil : ∀ ctx, ¬ends ctx [])
    (hends : ∀ ctx t, ends ctx t ↔ (format.parseLine ctx t).error = none ∧ (format.parseLine ctx t).rest ≠ [] ∧
      ¬format.lineDone (format.parseLine ctx t).state) (p : IncrementalParser κ μ) (t : Bytes) :
    (∃ r, format.Parses p t r) ↔ ¬p.EndsInToken ends t := by
  obtain ⟨out, stage⟩ := p
  cases stage with
  | done => exact iff_of_true ⟨_, rfl⟩ id
  | error e => exact iff_of_true ⟨_, rfl⟩ id
  | headers ctx => exact iff_of_true returns_headers id
  | line ctx =>
      change (∃ r, Returns format.pass ⟨⟨out, .line ctx⟩, t, none⟩ r) ↔ ¬ends ctx t
      constructor
      · rintro ⟨r, hr⟩ hctx
        refine not_returns_of_trap (D := fun s => ∃ ctx t, s = ⟨⟨out, .line ctx⟩, t, none⟩ ∧ ends ctx t) ?_ ⟨ctx, t, rfl, hctx⟩
          r hr
        rintro _ ⟨ctx, t, rfl, hctx⟩
        obtain ⟨herror, hrest, hdone⟩ := (hends ctx t).1 hctx
        have hne : t ≠ [] := fun h => hnil ctx (h ▸ hctx)
        -- a second call on what is left comes to the same
        have hagain : (format.parseLine ctx t).Agrees
            (format.parseLine (format.parseLine ctx t).state (format.parseLine ctx t).rest) := by
          have := hincremental ctx t []
          rwa [List.append_nil, List.append_nil] at this
        have hsame := hagain.eq_of_none (hagain.error ▸ herror)
        refine ⟨_, pass_line hne, (format.parseLine ctx t).state, (format.parseLine ctx t).rest, ?_, ?_⟩
        · simp only [if_neg hdone, herror]
        · rw [hends, ← hsame]
          exact ⟨herror, hrest, hdone⟩
      · intro hctx
        by_cases hne : t = []
        · exact pass_exit (.inl hne)
        refine returns_next (pass_line hne) ?_
        cases hdone : format.lineDone (format.parseLine ctx t).state with
        | true => exact returns_headers
        | false =>
            refine pass_exit ?_
            cases herror : (format.parseLine ctx t).error with
            | some e => exact .inr (.inr (.inr nofun))
            | none =>
                refine .inl (by_contra fun hrest => hctx ((hends ctx t).2 ⟨herror, hrest, ?_⟩))
                rw [hdone]
                nofun

end MessageFormat

/-! ## Requests and responses -/

theorem requestParse_iff (p : RequestIncrementalParser) (input : Bytes) :
    (∃ r, p.Parse input r) ↔ ¬p.EndsInToken ParseRequestLineContext.EndsInToken input := by
  refine MessageFormat.parses_iff parseRequestLine_incremental requestLine_waits.nil (fun ctx t => ?_) p input
  rw [requestLine_ends]
  simp [requestFormat]

theorem responseParse_iff (p : ResponseIncrementalParser) (input : Bytes) :
    (∃ r, p.Parse input r) ↔ ¬p.EndsInToken ParseStatusLineContext.EndsInToken input := by
  refine MessageFormat.parses_iff parseStatusLine_incremental statusLine_waits.nil (fun ctx t => ?_) p input
  rw [statusLine_ends]
  simp [responseFormat]

/-- The parsers of messages return if and only if the text does not end in the method, `HTTP/`, the version or the status of
the line before the headers. -/
theorem parse_returns_iff (p : RequestIncrementalParser) (p' : ResponseIncrementalParser) (input : Bytes) :
    ((∃ r, p.Parse input r) ↔ ¬p.EndsInToken ParseRequestLineContext.EndsInToken input) ∧
      ((∃ r, p'.Parse input r) ↔ ¬p'.EndsInToken ParseStatusLineContext.EndsInToken input) :=
  ⟨requestParse_iff p input, responseParse_iff p' input⟩

/-- A new parser that is given the beginning of a method does not return. -/
theorem parse_hangs_in_method : ¬∃ r, (RequestIncrementalParser.new {}).Parse (ascii "GE") r := by
  rw [requestParse_iff, not_not]
  exact .inl ⟨(ascii "GET", .get), List.mem_cons_self, by decide, ⟨ascii "T", rfl⟩, by decide⟩

/-! ## Messages that are serialized and parsed

What `serialize` appends to a buffer is the message, and the parser of messages takes its head back.
-/

namespace MessageFormat

variable {κ μ : Type} {format : MessageFormat κ μ}

theorem pass_done {out : μ} {input : Bytes} : format.pass ⟨⟨out, .done⟩, input, none⟩ = .done ⟨⟨out, .done⟩, input, none⟩ := by
  rw [pass, if_pos (.inr (.inl rfl))]

/-- The head of a message in front of any text. -/
theorem parses_head {ctx ctx' : κ} {line text : Bytes} {headers : Headers} (hne : line ≠ [])
    (hline : ∀ rest, format.parseLine ctx (line ++ rest) = ⟨ctx', rest, none⟩) (hdone : format.lineDone ctx' = true)
    (hwell : headers.WellFormed) (htext : FieldLines headers text) (out : μ) (rest : Bytes) :
    format.Parses ⟨out, .line ctx⟩ (line ++ (text ++ crlf ++ rest))
      ⟨⟨headers.foldl (fun out header => format.insertHeader out header.1 header.2) (format.takeLine ctx' out), .done⟩,
        rest, none⟩ := by
  obtain ⟨ctxHeaders, hstage, hheaders⟩ := parseHeaders_fields (f := format.insertHeader) hwell htext
  have hcrlf : text ++ crlf ++ rest ≠ [] :=
    List.append_ne_nil_of_left_ne_nil (List.append_ne_nil_of_right_ne_nil _ (by decide)) _
  refine .next (pass_line (List.append_ne_nil_of_left_ne_nil hne _)) ?_
  simp only [hline, hdone, if_true]
  refine .next (pass_headers hcrlf) ?_
  simp only [hheaders, hstage, if_true]
  exact .done pass_done

end MessageFormat

/-! ## Requests and responses -/

theorem insertHeaders_request (req : Request) (headers : Headers) :
    headers.foldl (fun out header => requestFormat.insertHeader out header.1 header.2) req =
      { req with headers := Headers.insertAll req.headers headers } := by
  induction headers generalizing req with
  | nil => rfl
  | cons header headers ih =>
      rw [List.foldl_cons, ih]
      rfl

theorem insertHeaders_response (res : Response) (headers : Headers) :
    headers.foldl (fun out header => responseFormat.insertHeader out header.1 header.2) res =
      { res with headers := Headers.insertAll res.headers headers } := by
  induction headers generalizing res with
  | nil => rfl
  | cons header headers ih =>
      rw [List.foldl_cons, ih]
      rfl

theorem parse_request_head {req : Request} (h : req.WellFormed) (rest : Bytes) :
    (RequestIncrementalParser.new {}).Parse (req.head ++ rest) ⟨⟨req, .done⟩, rest, none⟩ := by
  have hne : req.line ≠ [] := List.append_ne_nil_of_right_ne_nil _ (by decide)
  have hparse := @MessageFormat.parses_head _ _ requestFormat {} _ _ _ _ hne (parseRequestLine_line h) rfl h.headers
    (fieldLines_text req.headers) {} rest
  have hinsert : Headers.insertAll [] req.headers = req.headers := Headers.insertAll_distinct (A := []) h.headers.distinct
  rw [insertHeaders_request] at hparse
  change requestFormat.Parses _ _ ⟨⟨{ req with headers := Headers.insertAll [] req.headers }, .done⟩, rest, none⟩ at hparse
  rw [hinsert] at hparse
  rw [Request.head, List.append_assoc, List.append_assoc, ← List.append_assoc req.headers.text]
  exact hparse

theorem parse_response_head {res : Response} (h : res.WellFormed) (rest : Bytes) :
    (ResponseIncrementalParser.new {}).Parse (res.head ++ rest) ⟨⟨res, .done⟩, rest, none⟩ := by
  have hne : res.line ≠ [] := List.append_ne_nil_of_right_ne_nil _ (by decide)
  have hparse := @MessageFormat.parses_head _ _ responseFormat {} _ _ _ _ hne (parseStatusLine_line h) rfl h.headers
    (fieldLines_text res.headers) {} rest
  have hinsert : Headers.insertAll [] res.headers = res.headers := Headers.insertAll_distinct (A := []) h.headers.distinct
  rw [insertHeaders_response] at hparse
  change responseFormat.Parses _ _ ⟨⟨{ res with headers := Headers.insertAll [] res.headers }, .done⟩, rest, none⟩ at hparse
  rw [hinsert] at hparse
  rw [Response.head, List.append_assoc, List.append_assoc, ← List.append_assoc res.headers.text]
  exact hparse

/-- Exactly the message is appended to the buffer, and a new parser that is given its head, in front of any bytes, comes to
be done with the same message and leaves those bytes. -/
theorem message_round_trip :
    (∀ (req : Request) (body out : Bytes) (includeBody : Bool), req.WellFormed →
      req.serialize body out includeBody = some (out ++ (req.head ++ if includeBody then body else [])) ∧
      ∀ rest, (RequestIncrementalParser.new {}).Parse (req.head ++ rest) ⟨⟨req, .done⟩, rest, none⟩) ∧
    ∀ (res : Response) (body out : Bytes) (includeBody : Bool), res.WellFormed →
      res.serialize body out includeBody = some (out ++ (res.head ++ if includeBody then body else [])) ∧
      ∀ rest, (ResponseIncrementalParser.new {}).Parse (res.head ++ rest) ⟨⟨res, .done⟩, rest, none⟩ := by
  constructor
  · intro req body out includeBody h
    exact ⟨serializeRequest_eq req _ out, parse_request_head h⟩
  · intro res body out includeBody h
    have hstatus : res.status < 2 ^ 32 := Nat.lt_of_le_of_lt h.status.2 (by decide)
    exact ⟨serializeResponse_eq res _ out hstatus, parse_response_head h⟩

theorem wellFormed_host : Headers.WellFormed [(ascii "Host", ascii "a")] where
  name := by
    rintro header hheader
    obtain rfl := List.mem_singleton.1 hheader
    exact ⟨by decide, List.all_eq_true.1 rfl⟩
  value := by
    rintro header hheader
    obtain rfl := List.mem_singleton.1 hheader
    have hchars : (ascii "a").all isFieldVchar = true := rfl
    refine ⟨fun b hb => .inl (List.all_eq_true.1 hchars b hb), ?_, ?_⟩ <;> rintro b ⟨⟩ <;> rfl
  distinct := List.pairwise_singleton _ _
  length := by
    rintro header hheader hname
    obtain rfl := List.mem_singleton.1 hheader
    cases hname

/-- The requests and the responses that are as small as they come. -/
theorem message_round_trip_smallest :
    (Request.serialize { method := .get, target := ascii "/", version := .v1_1, headers := [(ascii "Host", ascii "a")] }
      (ascii "x") [] true = some (ascii "GET / HTTP/1.1\r\nHost: a\r\n\r\nx")) ∧
    ∀ rest, (ResponseIncrementalParser.new {}).Parse (ascii "HTTP/1.0 204 \r\n\r\n" ++ rest)
      ⟨⟨{ status := 204, version := .v1_0 }, .done⟩, rest, none⟩ := by
  refine ⟨(message_round_trip.1 _ (ascii "x") [] true ⟨by decide, ?_, .inl rfl, by decide, wellFormed_host⟩).1,
    (message_round_trip.2 { status := 204, version := .v1_0 } [] [] true
      ⟨by decide, by decide, nofun, ⟨nofun, nofun, .nil, nofun⟩⟩).2⟩
  intro b hb
  obtain rfl := List.mem_singleton.1 hb
  decide

end Rad.Http
