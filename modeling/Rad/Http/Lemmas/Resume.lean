import Rad.Http.Lemmas.Tokens
import Rad.Http.Fields
import Rad.Http.Lines

/-!
# Turns on longer texts

Each turn of the parsers comes to the same when there is more text behind, or goes on with it.
-/

namespace Rad.Http

open Lib

/-! ## Kinds of turns -/

section

variable {σ : Type*} {m : Machine σ UInt8 Error} {s s' : σ} {ch : UInt8} {e : Error}

/-- A turn that looks at one character. -/
theorem resumes_char (h : (∃ s', ∀ t, m.turn s ch t = .next s' t) ∨ (∃ s' e, ∀ t, m.turn s ch t = .fail s' (ch :: t) e))
    (tail : Bytes) : m.Resumes s ch tail := by
  rcases h with ⟨s', h⟩ | ⟨s', e, h⟩
  · exact .shift (h tail) fun u => h (tail ++ u)
  · exact .fail (h tail) fun u => ⟨_, h (tail ++ u)⟩

/-- What is done behind a token does not depend on the text behind `rest`. -/
inductive Finishes (m : Machine σ UInt8 Error) (g : Bytes → Turn σ UInt8 Error) (rest : Bytes) : Prop where
  | next {s' : σ} {r : Bytes} (h : ∀ u, g (rest ++ u) = .next s' (r ++ u))
  | final {s' : σ} {r : Bytes} (h : ∀ u, g (rest ++ u) = .stop s' (r ++ u))
    (hfinal : ∀ b u, m.turn s' b u = .stop s' (b :: u))
  | fail {s' : σ} {e : Error} (h : ∀ u, ∃ r, g (rest ++ u) = .fail s' r e)

theorem Finishes.resumes {g : Bytes → Turn σ UInt8 Error} {rest : Bytes} {tail : Bytes} (h : Finishes m g rest)
    (hturn : ∀ u, m.turn s ch (tail ++ u) = g (rest ++ u)) : m.Resumes s ch tail := by
  have hnil : m.turn s ch tail = g rest := by simpa using hturn []
  cases h with
  | next h => exact .shift (by simpa [hnil] using h []) fun u => by rw [hturn, h]
  | final h hfinal => exact .final (by simpa [hnil] using h []) (fun u => by rw [hturn, h]) hfinal
  | fail h =>
      obtain ⟨r, hr⟩ := h []
      exact .fail (by rw [hnil, ← hr, List.append_nil]) fun u => (h u).imp fun r hr => by rw [hturn, hr]

/-- A turn that reads a token as far as it is there. -/
theorem resumes_scan (act : Bytes → UInt8 → CharAct) {f : Bytes → σ} {g : Bytes → Bytes → Turn σ UInt8 Error}
    (token : Bytes) (ch : UInt8) (tail : Bytes)
    (hturn : ∀ token' b u, token' = token ∧ b = ch ∨ token' ≠ [] → m.turn (f token') b u =
      match scanToken act token' (b :: u) with
      | .failed token e => .fail (f token) (b :: u) e
      | .more token => .stop (f token) []
      | .finished token rest => g token rest)
    (hg : ∀ token' rest, scanToken act token (ch :: tail) = .finished token' rest → Finishes m (g token') rest) :
    m.Resumes (f token) ch tail := by
  have hfirst := fun u => hturn token ch u (.inl ⟨rfl, rfl⟩)
  cases hscan : scanToken act token (ch :: tail) with
  | more token' =>
      have h : m.turn (f token) ch tail = .stop (f token') [] := by rw [hfirst, hscan]
      refine .part (.inr h) fun b u => ?_
      have hmore := scanToken_more hscan (b :: u)
      rw [List.cons_append] at hmore
      rw [hfirst, hmore, hturn token' b u (.inr (scanToken_more_ne_nil hscan))]
      cases scanToken act token' (b :: u) with
      | more token'' => exact .same _
      | finished token'' rest => exact .same _
      | failed token'' e => exact .fail _ _ _ _
  | finished token' rest =>
      refine (hg _ _ hscan).resumes fun u => ?_
      have hmore := scanToken_finished hscan u
      rw [List.cons_append] at hmore
      rw [hfirst, hmore]
  | failed token' e =>
      have h : m.turn (f token) ch tail = .fail (f token') (ch :: tail) e := by rw [hfirst, hscan]
      refine .fail h fun u => ⟨ch :: (tail ++ u), ?_⟩
      have hmore := scanToken_failed hscan u
      rw [List.cons_append] at hmore
      rw [hfirst, hmore]

/-- A turn that waits for a token that is there as a whole. -/
theorem resumes_whole {τ : Type*} {parse : Bytes → Except Error (Option (τ × Bytes))} {f : τ → σ} {tail : Bytes}
    (hturn : ∀ t, m.turn s ch t =
      match parse (ch :: t) with
      | .error e => .fail s (ch :: t) e
      | .ok none => .stop s (ch :: t)
      | .ok (some (v, rest)) => .next (f v) rest)
    (hsome : ∀ {v rest}, parse (ch :: tail) = .ok (some (v, rest)) →
      ∀ u, parse (ch :: tail ++ u) = .ok (some (v, rest ++ u)))
    (herror : ∀ {e}, parse (ch :: tail) = .error e → ∀ u, parse (ch :: tail ++ u) = .error e) :
    m.Resumes s ch tail := by
  cases hparse : parse (ch :: tail) with
  | error e =>
      have h : m.turn s ch tail = .fail s (ch :: tail) e := by rw [hturn, hparse]
      refine .fail h fun u => ⟨ch :: (tail ++ u), ?_⟩
      have hmore := herror hparse u
      rw [List.cons_append] at hmore
      rw [hturn, hmore]
  | ok r =>
      cases r with
      | none => exact .wait (by rw [hturn, hparse])
      | some r =>
          have h : m.turn s ch tail = .next (f r.1) r.2 := by rw [hturn, hparse]
          refine .shift h fun u => ?_
          have hmore := hsome hparse u
          rw [List.cons_append] at hmore
          rw [hturn, hmore]

theorem resumes_slash {tail : Bytes} (s' : σ)
    (hturn : ∀ t, m.turn s ch t =
      match parseHttpSlash (ch :: t) with
      | .error e => .fail s (ch :: t) e
      | .ok none => .stop s (ch :: t)
      | .ok (some rest) => .next s' rest) : m.Resumes s ch tail := by
  cases hslash : parseHttpSlash (ch :: tail) with
  | error e =>
      have h : m.turn s ch tail = .fail s (ch :: tail) e := by rw [hturn, hslash]
      refine .fail h fun u => ⟨ch :: (tail ++ u), ?_⟩
      have hmore := parseHttpSlash_error hslash u
      rw [List.cons_append] at hmore
      rw [hturn, hmore]
  | ok r =>
      cases r with
      | none => exact .wait (by rw [hturn, hslash])
      | some rest =>
          have h : m.turn s ch tail = .next s' rest := by rw [hturn, hslash]
          refine .shift h fun u => ?_
          have hmore := parseHttpSlash_some hslash u
          rw [List.cons_append] at hmore
          rw [hturn, hmore]

/-- A turn that does nothing. -/
theorem resumes_idle (h : ∀ t, m.turn s ch t = .stop s (ch :: t)) (tail : Bytes) : m.Resumes s ch tail := .wait (h tail)

end

/-! ## The lines -/

/-- The request line behind its target. -/
abbrev behindTarget (ctx : ParseRequestLineContext) (target rest : Bytes) : Turn ParseRequestLineContext UInt8 Error :=
  match validateTarget ctx.method target with
  | some e => .fail { ctx with target } rest e
  | none => .next { ctx with target, stage := .httpSlash } rest

theorem requestLine_resumes (ctx : ParseRequestLineContext) (ch : UInt8) (tail : Bytes) :
    requestLineMachine.Resumes ctx ch tail := by
  have hne : ch :: tail ≠ [] := List.cons_ne_nil _ _
  have hturn : requestLineMachine.turn = requestLineTurn := rfl
  cases hstage : ctx.stage with
  | method =>
      refine resumes_whole (f := fun method => { ctx with method, stage := .sp .targetStart }) (fun t => ?_)
        parseHttpMethod_some parseHttpMethod_error
      simp only [hturn, requestLineTurn, hstage]
      rcases parseHttpMethod (ch :: t) with e | _ | ⟨method, rest⟩ <;> rfl
  | sp next =>
      refine resumes_char ?_ tail
      simp only [hturn, requestLineTurn, hstage]
      by_cases hsp : isHttpSp ch = true
      · exact .inl ⟨_, fun t => if_pos hsp⟩
      · exact .inr ⟨_, _, fun t => if_neg hsp⟩
  | targetStart =>
      refine resumes_char ?_ tail
      simp only [hturn, requestLineTurn, hstage]
      by_cases hbad : ch = 0x2a ∧ ctx.method ≠ .options ∨ ch = 0x2f ∧ ctx.method = .connect ∨ isHttpVchar ch = false
      · exact .inr ⟨_, _, fun t => if_pos hbad⟩
      · exact .inl ⟨_, fun t => if_neg hbad⟩
  | target =>
      refine resumes_scan
        (fun _ ch => if ch = 0x20 then .endsWith else if isHttpVchar ch then .push else .refuse .badTarget)
        (f := fun target => { ctx with target })
        (g := behindTarget ctx)
        ctx.target ch tail (fun target b u _ => ?_) (fun target rest _ => ?_)
      · simp only [hturn, requestLineTurn, hstage, behindTarget]
        rfl
      · unfold behindTarget
        cases hvalid : validateTarget ctx.method target with
        | some e => exact .fail fun u => ⟨_, rfl⟩
        | none => exact .next fun u => rfl
  | httpSlash =>
      refine resumes_slash { ctx with stage := .version } fun t => ?_
      rcases hslash : parseHttpSlash (ch :: t) with e | _ | rest <;>
        simp only [hturn, requestLineTurn, hstage, hslash]
  | version =>
      refine resumes_whole (f := fun version => { ctx with version, stage := .cr }) (fun t => ?_)
        (parseHttpVersion_some hne) (parseHttpVersion_error hne)
      simp only [hturn, requestLineTurn, hstage]
      rcases parseHttpVersion (ch :: t) with e | _ | ⟨version, rest⟩ <;> rfl
  | cr =>
      refine resumes_char ?_ tail
      simp only [hturn, requestLineTurn, hstage]
      by_cases hcr : ch = 0x0d
      · exact .inl ⟨_, fun t => if_pos hcr⟩
      · exact .inr ⟨_, _, fun t => if_neg hcr⟩
  | lf =>
      refine resumes_char ?_ tail
      simp only [hturn, requestLineTurn, hstage]
      by_cases hlf : ch = 0x0a
      · exact .inl ⟨_, fun t => if_pos hlf⟩
      · exact .inr ⟨_, _, fun t => if_neg hlf⟩
  | done => exact resumes_idle (fun t => by simp only [hturn, requestLineTurn, hstage]) tail
  | error e => exact resumes_idle (fun t => by simp only [hturn, requestLineTurn, hstage]) tail

theorem statusLine_resumes (ctx : ParseStatusLineContext) (ch : UInt8) (tail : Bytes) :
    statusLineMachine.Resumes ctx ch tail := by
  have hne : ch :: tail ≠ [] := List.cons_ne_nil _ _
  have hturn : statusLineMachine.turn = statusLineTurn := rfl
  cases hstage : ctx.stage with
  | httpSlash =>
      refine resumes_slash { ctx with stage := .version } fun t => ?_
      rcases hslash : parseHttpSlash (ch :: t) with e | _ | rest <;>
        simp only [hturn, statusLineTurn, hstage, hslash]
  | version =>
      refine resumes_whole (f := fun version => { ctx with version, stage := .sp .status }) (fun t => ?_)
        (parseHttpVersion_some hne) (parseHttpVersion_error hne)
      simp only [hturn, statusLineTurn, hstage]
      rcases parseHttpVersion (ch :: t) with e | _ | ⟨version, rest⟩ <;> rfl
  | sp next =>
      refine resumes_char ?_ tail
      simp only [hturn, statusLineTurn, hstage]
      by_cases hsp : isHttpSp ch = true
      · exact .inl ⟨_, fun t => if_pos hsp⟩
      · exact .inr ⟨_, _, fun t => if_neg hsp⟩
  | status =>
      refine resumes_whole (f := fun status => { ctx with status, stage := .sp .reasonStartOrCr }) (fun t => ?_)
        (parseHttpStatus_some hne) (parseHttpStatus_error hne)
      simp only [hturn, statusLineTurn, hstage]
      rcases parseHttpStatus (ch :: t) with e | _ | ⟨status, rest⟩ <;> rfl
  | reasonStartOrCr =>
      refine resumes_char ?_ tail
      simp only [hturn, statusLineTurn, hstage]
      by_cases hreason : isHttpReasonPhrase ch = true
      · exact .inl ⟨_, fun t => if_pos hreason⟩
      by_cases hcr : ch = 0x0d
      · exact .inl ⟨_, fun t => (if_neg hreason).trans (if_pos hcr)⟩
      · exact .inr ⟨_, _, fun t => (if_neg hreason).trans (if_neg hcr)⟩
  | reason =>
      refine resumes_scan
        (fun _ ch => if isHttpReasonPhrase ch then .push else if ch = 0x0d then .endsWith else .refuse .badReason)
        (f := fun reason => { ctx with reason }) (g := fun reason rest => .next { ctx with reason, stage := .lf } rest)
        ctx.reason ch tail (fun reason b u _ => ?_) (fun _ _ _ => .next fun u => rfl)
      simp only [hturn, statusLineTurn, hstage]
      rfl
  | lf =>
      by_cases hlf : ch = 0x0a
      · have h : ∀ t, statusLineTurn ctx ch t = .stop { ctx with stage := .done } t := fun t => by
          simp only [statusLineTurn, hstage, if_pos hlf]
        exact .final (h tail) (fun u => h (tail ++ u)) fun b u => rfl
      · refine resumes_char (.inr ⟨ctx, .badLineEnding, fun t => ?_⟩) tail
        simp only [hturn, statusLineTurn, hstage, if_neg hlf]
  | done => exact resumes_idle (fun t => by simp only [hturn, statusLineTurn, hstage]) tail
  | error e => exact resumes_idle (fun t => by simp only [hturn, statusLineTurn, hstage]) tail

/-! ## Header fields -/

theorem consumeOws_nil {input : Bytes} (h : consumeOws input = []) (u : Bytes) :
    consumeOws (input ++ u) = consumeOws u := by
  have hall : ∀ b ∈ input, isHttpWs b = true := List.dropWhile_eq_nil_iff.1 h
  exact List.dropWhile_append_of_pos hall

theorem consumeOws_cons {input rest : Bytes} {b : UInt8} (h : consumeOws input = b :: rest) (u : Bytes) :
    consumeOws (input ++ u) = b :: (rest ++ u) := by
  rw [consumeOws, List.dropWhile_append]
  change (if (consumeOws input).isEmpty = true then _ else consumeOws input ++ u) = _
  rw [h]
  rfl

/-- A field behind the white space. -/
abbrev behindOws {η : Type*} (onHeader : HeaderCallback η) (ctx : ParseHeadersContext) (env : η) (next : HeadersNext) :
    Bytes → Turn (ParseHeadersContext × η) UInt8 Error
  | [] => .stop (ctx, env) []
  | b :: rest =>
    if next = .cr ∧ ctx.name ≠ [] then
      match onHeader with
      | none => .fail (ctx, env) (b :: rest) .undefined
      | some onHeader =>
        .next ({ ctx with name := [], value := [], stage := next.stage }, onHeader env ctx.name ctx.value) (b :: rest)
    else .next ({ ctx with stage := next.stage }, env) (b :: rest)

/-- A field behind its value. -/
abbrev behindValue {η : Type*} (ctx : ParseHeadersContext) (env : η) (value rest : Bytes) :
    Turn (ParseHeadersContext × η) UInt8 Error :=
  let ctx := { ctx with value := value.rdropWhile isHttpWs }
  match ctx.checkContentLength with
  | .error e => .fail (ctx, env) rest e
  | .ok ctx => .next ({ ctx with stage := .ows .cr }, env) rest

theorem headers_resumes {η : Type*} (onHeader : HeaderCallback η) (s : ParseHeadersContext × η) (ch : UInt8)
    (tail : Bytes) : (headersMachine onHeader).Resumes s ch tail := by
  obtain ⟨ctx, env⟩ := s
  have hturn : (headersMachine onHeader).turn = headersTurn onHeader := rfl
  cases hstage : ctx.stage with
  | nameAndColon =>
      by_cases hend : ctx.name = [] ∧ ch = 0x0d
      · refine resumes_char (.inl ⟨({ ctx with stage := .terminatingLf }, env), fun t => ?_⟩) tail
        simp only [hturn, headersTurn, hstage, if_pos hend]
      refine resumes_scan (fun _ ch => if isHttpTchar ch then .push else if ch = 0x3a then .endsWith else .refuse .badField)
        (f := fun name => ({ ctx with name }, env))
        (g := fun name rest =>
          if name = [] then .fail ({ ctx with name }, env) rest .badField
          else
            let r := { ctx with name }.checkDuplicate
            if r.2 then .fail (r.1, env) rest .badField else .next ({ r.1 with stage := .ows .value }, env) rest)
        ctx.name ch tail (fun name b u hname => ?_) (fun name rest _ => ?_)
      · have hnot : ¬(name = [] ∧ b = 0x0d) := by
          rintro ⟨rfl, rfl⟩
          rcases hname with ⟨hnil, rfl⟩ | hne
          · exact hend ⟨hnil.symm, rfl⟩
          · exact hne rfl
        simp only [hturn, headersTurn, hstage, if_neg hnot]
        rfl
      · by_cases hname : name = []
        · exact .fail fun u => ⟨_, if_pos hname⟩
        cases hdup : ({ ctx with name }.checkDuplicate).2 with
        | true => exact .fail fun u => ⟨_, (if_neg hname).trans (if_pos hdup)⟩
        | false => exact .next fun u => (if_neg hname).trans (if_neg (by rw [hdup]; simp))
  | ows next =>
      have howsTurn : ∀ ch tail, headersTurn onHeader (ctx, env) ch tail =
          behindOws onHeader ctx env next (consumeOws (ch :: tail)) := by
        intro ch tail
        rcases hows : consumeOws (ch :: tail) with _ | ⟨b, rest⟩ <;> cases onHeader <;>
          simp only [headersTurn, hstage, hows]
      cases hows : consumeOws (ch :: tail) with
      | nil =>
          have h : headersTurn onHeader (ctx, env) ch tail = .stop (ctx, env) [] := by rw [howsTurn, hows]
          refine .part (.inr h) fun b u => ?_
          have hmore := consumeOws_nil hows (b :: u)
          rw [List.cons_append] at hmore
          rw [hturn, howsTurn, hmore, howsTurn]
          exact .same _
      | cons b rest =>
          have hmore : ∀ u, consumeOws (ch :: (tail ++ u)) = b :: (rest ++ u) := consumeOws_cons hows
          by_cases hreport : next = .cr ∧ ctx.name ≠ []
          · cases onHeader with
            | none =>
                have h : ∀ u, headersTurn none (ctx, env) ch (tail ++ u) = .fail (ctx, env) (b :: (rest ++ u)) .undefined := by
                  intro u
                  rw [howsTurn, hmore]
                  exact if_pos hreport
                exact .fail (by simpa [hturn] using h []) fun u => ⟨_, h u⟩
            | some onHeader =>
                have h : ∀ u, headersTurn (some onHeader) (ctx, env) ch (tail ++ u) =
                    .next ({ ctx with name := [], value := [], stage := next.stage }, onHeader env ctx.name ctx.value)
                      (b :: rest ++ u) := by
                  intro u
                  rw [howsTurn, hmore]
                  exact if_pos hreport
                exact .shift (by simpa [hturn] using h []) h
          · have h : ∀ u, headersTurn onHeader (ctx, env) ch (tail ++ u) =
                .next ({ ctx with stage := next.stage }, env) (b :: rest ++ u) := by
              intro u
              rw [howsTurn, hmore]
              exact if_neg hreport
            exact .shift (by simpa [hturn] using h []) h
  | value =>
      refine resumes_scan
        (fun value ch =>
          if isFieldContent value ch then .push else if ch = 0x0d then .endsBefore else .refuse .badValue)
        (f := fun value => ({ ctx with value }, env))
        (g := behindValue ctx env)
        ctx.value ch tail (fun value b u _ => ?_) (fun value rest _ => ?_)
      · simp only [hturn, headersTurn, hstage, behindValue]
        rfl
      · cases hlength : ({ ctx with value := value.rdropWhile isHttpWs }).checkContentLength with
        | error e => exact .fail fun u => ⟨_, by simp only [behindValue, hlength]; rfl⟩
        | ok ctx' => exact .next fun u => by simp only [behindValue, hlength]; rfl
  | cr =>
      refine resumes_char ?_ tail
      simp only [hturn, headersTurn, hstage]
      by_cases hcr : ch = 0x0d
      · exact .inl ⟨_, fun t => if_pos hcr⟩
      · exact .inr ⟨_, _, fun t => if_neg hcr⟩
  | lf =>
      refine resumes_char ?_ tail
      simp only [hturn, headersTurn, hstage]
      by_cases hlf : ch = 0x0a
      · exact .inl ⟨_, fun t => if_pos hlf⟩
      · exact .inr ⟨_, _, fun t => if_neg hlf⟩
  | terminatingLf =>
      refine resumes_char ?_ tail
      simp only [hturn, headersTurn, hstage]
      by_cases hlf : ch = 0x0a
      · exact .inl ⟨_, fun t => if_pos hlf⟩
      · exact .inr ⟨_, _, fun t => if_neg hlf⟩
  | done => exact resumes_idle (fun t => by simp only [hturn, headersTurn, hstage]) tail
  | error e => exact resumes_idle (fun t => by simp only [hturn, headersTurn, hstage]) tail

end Rad.Http
