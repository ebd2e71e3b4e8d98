import Rad.Http.Fields
import Rad.Http.Lemmas.Messages

/-!
# Fields that are well-formed

The parser of headers, followed through the lines of fields in front of any text.
-/

namespace Rad.Http

open Lib

/-! ## Lines of fields -/

/-- A line with the field `name`, with any white space around the value. -/
inductive FieldLine (name value : Bytes) : Bytes → Prop where
  | mk {before behind : Bytes} (hbefore : ∀ b ∈ before, isHttpWs b = true) (hbehind : ∀ b ∈ behind, isHttpWs b = true) :
    FieldLine name value (name ++ 0x3a :: (before ++ (value ++ (behind ++ crlf))))

/-- The lines of headers. -/
inductive FieldLines : Headers → Bytes → Prop where
  | nil : FieldLines [] []
  | cons {header : Bytes × Bytes} {headers : Headers} {line text : Bytes} (hline : FieldLine header.1 header.2 line)
    (htext : FieldLines headers text) : FieldLines (header :: headers) (line ++ text)

theorem fieldLines_text (headers : Headers) : FieldLines headers headers.text := by
  induction headers with
  | nil => exact .nil
  | cons header headers ih =>
      have hline : FieldLine header.1 header.2 (header.1 ++ colonSp ++ header.2 ++ crlf) := by
        have hmk : FieldLine header.1 header.2 (header.1 ++ 0x3a :: (sp ++ (header.2 ++ ([] ++ crlf)))) :=
          .mk (List.all_eq_true.1 rfl) nofun
        have htext : header.1 ++ colonSp ++ header.2 ++ crlf = header.1 ++ 0x3a :: (sp ++ (header.2 ++ ([] ++ crlf))) := by
          have hcolon : colonSp = 0x3a :: sp := rfl
          rw [hcolon, List.nil_append, List.append_assoc, List.append_assoc, List.cons_append]
        rwa [htext]
      exact .cons hline ih

/-! ## The checks -/

/-- None of the fields that a message has at most once is there already among those to come. -/
structure ParseHeadersContext.Allows (ctx : ParseHeadersContext) (headers : Headers) : Prop where
  host : ctx.gotHost = true → ∀ header ∈ headers, iequal header.1 hostField = false
  connection : ctx.gotConnection = true → ∀ header ∈ headers, iequal header.1 connectionField = false
  upgrade : ctx.gotUpgrade = true → ∀ header ∈ headers, iequal header.1 upgradeField = false
  transferEncoding : ctx.gotTransferEncoding = true → ∀ header ∈ headers, iequal header.1 transferEncodingField = false

/-- There is no Content-Length yet, or there is none among the fields to come. -/
def ParseHeadersContext.AllowsLength (ctx : ParseHeadersContext) (headers : Headers) : Prop :=
  ctx.firstContentLength ≠ none → ∀ header ∈ headers, iequal header.1 contentLengthField = false

theorem iequal_other {a b c : Bytes} (hc : iequal a c = true) (hb : iequal a b = false) : iequal b c = false := by
  rw [← Bool.not_eq_true, iequal_iff] at hb ⊢
  rw [iequal_iff] at hc
  exact fun h => hb (hc.trans h.symm)

theorem checkDuplicate_allows {ctx : ParseHeadersContext} {header : Bytes × Bytes} {headers : Headers}
    (h : ctx.Allows (header :: headers)) (hname : ctx.name = header.1)
    (hdistinct : ∀ b ∈ headers, iequal header.1 b.1 = false) :
    ∃ ctx', ctx.checkDuplicate = (ctx', false) ∧ ctx'.Allows headers ∧ ctx'.name = ctx.name ∧ ctx'.value = ctx.value ∧
      ctx'.firstContentLength = ctx.firstContentLength := by
  have hbehind : ctx.Allows headers :=
    ⟨fun hgot b hb => h.host hgot b (List.mem_cons_of_mem _ hb),
      fun hgot b hb => h.connection hgot b (List.mem_cons_of_mem _ hb),
      fun hgot b hb => h.upgrade hgot b (List.mem_cons_of_mem _ hb),
      fun hgot b hb => h.transferEncoding hgot b (List.mem_cons_of_mem _ hb)⟩
  -- a field that is there for the first time is not among those to come
  have hnew : ∀ {field : Bytes} {got : Bool}, iequal header.1 field = true →
      (got = true → ∀ b ∈ header :: headers, iequal b.1 field = false) →
      got = false ∧ ∀ b ∈ headers, iequal b.1 field = false := by
    intro field got hfield hgot
    refine ⟨?_, fun b hb => iequal_other hfield (hdistinct b hb)⟩
    cases got with
    | false => rfl
    | true => rw [hgot rfl header List.mem_cons_self] at hfield; cases hfield
  obtain ⟨name, value⟩ := header
  subst hname
  rw [ParseHeadersContext.checkDuplicate]
  split
  · rename_i hfield
    obtain ⟨hgot, hothers⟩ := hnew hfield h.host
    exact ⟨_, Prod.ext rfl hgot, ⟨fun _ => hothers, hbehind.connection, hbehind.upgrade, hbehind.transferEncoding⟩, rfl, rfl, rfl⟩
  split
  · rename_i hfield
    obtain ⟨hgot, hothers⟩ := hnew hfield h.connection
    exact ⟨_, Prod.ext rfl hgot, ⟨hbehind.host, fun _ => hothers, hbehind.upgrade, hbehind.transferEncoding⟩, rfl, rfl, rfl⟩
  split
  · rename_i hfield
    obtain ⟨hgot, hothers⟩ := hnew hfield h.upgrade
    exact ⟨_, Prod.ext rfl hgot, ⟨hbehind.host, hbehind.connection, fun _ => hothers, hbehind.transferEncoding⟩, rfl, rfl, rfl⟩
  split
  · rename_i hfield
    obtain ⟨hgot, hothers⟩ := hnew hfield h.transferEncoding
    exact ⟨_, Prod.ext rfl hgot, ⟨hbehind.host, hbehind.connection, hbehind.upgrade, fun _ => hothers⟩, rfl, rfl, rfl⟩
  · exact ⟨ctx, rfl, hbehind, rfl, rfl, rfl⟩

theorem toUint64_digits {text : Bytes} (hne : text ≠ []) (hdigits : text.all isDigit = true)
    (hvalue : decimalValue text < 2 ^ 64) : toUint64 text = (decimalValue text, true) := by
  have htake : text.takeWhile isDigit = text := List.takeWhile_eq_self_iff.2 (List.all_eq_true.1 hdigits)
  rw [toUint64, htake, if_neg hne, if_neg (Nat.not_le.2 hvalue)]
  simp

theorem checkContentLength_allows {ctx : ParseHeadersContext} {header : Bytes × Bytes} {headers : Headers}
    (h : ctx.AllowsLength (header :: headers)) (hname : ctx.name = header.1) (hvalue : ctx.value = header.2)
    (hdistinct : ∀ b ∈ headers, iequal header.1 b.1 = false)
    (hlength : iequal header.1 contentLengthField = true →
      header.2 ≠ [] ∧ header.2.all isDigit = true ∧ decimalValue header.2 < 2 ^ 64) :
    ∃ n, ctx.checkContentLength = .ok { ctx with firstContentLength := n } ∧
      { ctx with firstContentLength := n }.AllowsLength headers := by
  obtain ⟨name, value⟩ := header
  subst hname hvalue
  rw [ParseHeadersContext.checkContentLength]
  cases hfield : iequal ctx.name contentLengthField with
  | false => exact ⟨ctx.firstContentLength, if_pos rfl, fun hfirst b hb => h hfirst b (List.mem_cons_of_mem _ hb)⟩
  | true =>
      obtain ⟨hne, hdigits, hlt⟩ := hlength hfield
      have hnone : ctx.firstContentLength = none := by
        by_contra hfirst
        have hother := h hfirst (ctx.name, ctx.value) List.mem_cons_self
        rw [hfield] at hother
        cases hother
      rw [toUint64_digits hne hdigits hlt, hnone]
      exact ⟨some (decimalValue ctx.value), rfl, fun _ b hb => iequal_other hfield (hdistinct b hb)⟩

/-! ## Turns -/

section

variable {η : Type*} {onHeader : HeaderCallback η} {f : η → Bytes → Bytes → η} {ctx : ParseHeadersContext} {env : η}
  {rest : Bytes}

theorem headersMachine_turn (onHeader : HeaderCallback η) : (headersMachine onHeader).turn = headersTurn onHeader := rfl

theorem headers_name (hstage : ctx.stage = .nameAndColon) (hnil : ctx.name = []) {name : Bytes} (hname : IsToken name)
    {ctx' : ParseHeadersContext} (hcheck : { ctx with name }.checkDuplicate = (ctx', false)) :
    (headersMachine onHeader).run (ctx, env) (name ++ 0x3a :: rest) =
      (headersMachine onHeader).run ({ ctx' with stage := .ows .value }, env) rest := by
  have hscan : parseFieldNameAndColon ctx.name (name ++ 0x3a :: rest) = .finished name rest := by
    rw [parseFieldNameAndColon, hnil, scanToken_append]
    · rfl
    · exact fun y b z hsplit => if_pos (hname.2 b (by simp [hsplit]))
  refine Machine.run_next_of (List.append_ne_nil_of_left_ne_nil hname.1 _) fun ch tail h => ?_
  have hch : ¬(ctx.name = [] ∧ ch = 0x0d) := by
    rintro ⟨-, rfl⟩
    cases name with
    | nil => exact hname.1 rfl
    | cons b name =>
        cases h
        exact absurd (hname.2 0x0d List.mem_cons_self) (by decide)
  simp only [hstage] at hcheck
  simp only [headersMachine_turn, headersTurn, hstage]
  rw [if_neg hch, ← h, hscan]
  simp only [if_neg hname.1, hcheck]
  rfl

theorem headers_ows {next : HeadersNext} (hstage : ctx.stage = .ows next) (hnext : ¬(next = .cr ∧ ctx.name ≠ []))
    {before : Bytes} (hbefore : ∀ b ∈ before, isHttpWs b = true) {b : UInt8} (hb : isHttpWs b = false) :
    (headersMachine onHeader).run (ctx, env) (before ++ b :: rest) =
      (headersMachine onHeader).run ({ ctx with stage := next.stage }, env) (b :: rest) := by
  have hows : consumeOws (before ++ b :: rest) = b :: rest := by
    rw [consumeOws, List.dropWhile_append_of_pos hbefore, List.dropWhile_cons_of_neg (by rw [hb]; nofun)]
  refine Machine.run_next_of (List.append_ne_nil_of_right_ne_nil _ (List.cons_ne_nil _ _)) fun ch tail h => ?_
  simp only [headersMachine_turn, headersTurn, hstage]
  rw [← h, hows]
  exact if_neg hnext

theorem headers_report (hstage : ctx.stage = .ows .cr) (hname : ctx.name ≠ []) :
    (headersMachine (some f)).run (ctx, env) (0x0d :: rest) =
      (headersMachine (some f)).run ({ ctx with name := [], value := [], stage := .cr }, f env ctx.name ctx.value)
        (0x0d :: rest) := by
  refine Machine.run_next ?_
  simp only [headersMachine_turn, headersTurn, hstage]
  exact if_pos ⟨trivial, hname⟩

theorem rdropWhile_behind {value behind : Bytes} (hvalue : ∀ b, value.getLast? = some b → isHttpWs b = false)
    (hbehind : ∀ b ∈ behind, isHttpWs b = true) : (value ++ behind).rdropWhile isHttpWs = value := by
  rw [List.rdropWhile, List.reverse_append,
    List.dropWhile_append_of_pos fun b hb => hbehind b (List.mem_reverse.1 hb)]
  change value.rdropWhile isHttpWs = value
  refine List.rdropWhile_eq_self_iff.2 fun hne => ?_
  rw [hvalue _ (List.getLast?_eq_some_getLast hne)]
  nofun

theorem headers_value (hstage : ctx.stage = .value) (hnil : ctx.value = []) {value behind : Bytes}
    (hvalue : IsFieldText value) (hbehind : ∀ b ∈ behind, isHttpWs b = true) (hempty : value = [] → behind = [])
    {ctx' : ParseHeadersContext} (hcheck : { ctx with value }.checkContentLength = .ok ctx') :
    (headersMachine onHeader).run (ctx, env) (value ++ (behind ++ 0x0d :: rest)) =
      (headersMachine onHeader).run ({ ctx' with stage := .ows .cr }, env) (0x0d :: rest) := by
  have hpush : ∀ y b z, value ++ behind = y ++ b :: z → isFieldContent y b = true := by
    intro y b z hsplit
    have hb : isFieldVchar b = true ∨ isHttpWs b = true := by
      have hmem : b ∈ value ++ behind := by simp [hsplit]
      rcases List.mem_append.1 hmem with hmem | hmem
      · exact hvalue.1 b hmem
      · exact .inr (hbehind b hmem)
    rw [isFieldContent, Bool.or_eq_true]
    rcases hb with hb | hb
    · exact .inl hb
    · -- white space is not the first character
      cases y with
      | nil =>
          cases value with
          | nil =>
              rw [hempty rfl] at hsplit
              cases hsplit
          | cons c value =>
              cases hsplit
              rw [hvalue.2.1 b rfl] at hb
              cases hb
      | cons c y => exact .inr (by simpa [isHttpWs] using hb)
  have hscan : parseFieldValue ctx.value (value ++ (behind ++ 0x0d :: rest)) = .finished (value ++ behind) (0x0d :: rest) := by
    rw [parseFieldValue, hnil, ← List.append_assoc, scanToken_append]
    · rw [List.nil_append, scanToken]
      have hcr : isFieldContent (value ++ behind) 0x0d = false := by
        simp [isFieldContent, isFieldVchar, isHttpVchar, isHttpObsText, isHttpSp]
      rw [hcr]
      rfl
    · exact fun y b z hsplit => if_pos (hpush y b z hsplit)
  have hne : value ++ (behind ++ 0x0d :: rest) ≠ [] :=
    List.append_ne_nil_of_right_ne_nil _ (List.append_ne_nil_of_right_ne_nil _ (List.cons_ne_nil _ _))
  refine Machine.run_next_of hne fun ch tail h => ?_
  simp only [hstage] at hcheck
  simp only [headersMachine_turn, headersTurn, hstage]
  rw [← h, hscan]
  simp only [rdropWhile_behind hvalue.2.2 hbehind, hcheck]

theorem headers_crlf (hstage : ctx.stage = .cr) :
    (headersMachine onHeader).run (ctx, env) (crlf ++ rest) =
      (headersMachine onHeader).run ({ ctx with stage := .nameAndColon }, env) rest := by
  have hcr : (headersMachine onHeader).turn (ctx, env) 0x0d (0x0a :: rest) =
      .next ({ ctx with stage := .lf }, env) (0x0a :: rest) := by
    simp only [headersMachine_turn, headersTurn, hstage]
    rfl
  exact (Machine.run_next hcr).trans (Machine.run_next rfl)

/-- The line that ends the headers. -/
theorem headers_end (hstage : ctx.stage = .nameAndColon) (hname : ctx.name = []) :
    (headersMachine onHeader).run (ctx, env) (crlf ++ rest) = ⟨({ ctx with stage := .done }, env), rest, none⟩ := by
  have hcr : (headersMachine onHeader).turn (ctx, env) 0x0d (0x0a :: rest) =
      .next ({ ctx with stage := .terminatingLf }, env) (0x0a :: rest) := by
    simp only [headersMachine_turn, headersTurn, hstage]
    exact if_pos ⟨hname, trivial⟩
  refine (Machine.run_next hcr).trans ?_
  have hlf : (headersMachine onHeader).turn ({ ctx with stage := .terminatingLf }, env) 0x0a rest =
      .next ({ ctx with stage := .done }, env) rest := rfl
  refine (Machine.run_next hlf).trans ?_
  cases rest with
  | nil => exact Machine.run_nil
  | cons ch rest => exact Machine.run_stop rfl

/-! ## Fields -/

/-- The context between two fields, with the fields to come. -/
structure ParseHeadersContext.Ready (ctx : ParseHeadersContext) (headers : Headers) : Prop where
  stage : ctx.stage = .nameAndColon
  name : ctx.name = []
  value : ctx.value = []
  allows : ctx.Allows headers
  allowsLength : ctx.AllowsLength headers

theorem ready_new (headers : Headers) : ParseHeadersContext.Ready {} headers :=
  ⟨rfl, rfl, rfl, ⟨nofun, nofun, nofun, nofun⟩, fun h => absurd rfl h⟩

/-- The white space around a value is not part of it. -/
theorem headers_spaced (hstage : ctx.stage = .ows .value) (hnil : ctx.value = []) {before value behind : Bytes}
    (hbefore : ∀ b ∈ before, isHttpWs b = true) (hvalue : IsFieldText value) (hbehind : ∀ b ∈ behind, isHttpWs b = true)
    {ctx' : ParseHeadersContext} (hcheck : { ctx with value, stage := .value }.checkContentLength = .ok ctx') :
    (headersMachine onHeader).run (ctx, env) (before ++ (value ++ (behind ++ 0x0d :: rest))) =
      (headersMachine onHeader).run ({ ctx' with stage := .ows .cr }, env) (0x0d :: rest) := by
  have hnext : ¬(HeadersNext.value = .cr ∧ ctx.name ≠ []) := fun h => nomatch h.1
  cases value with
  | nil =>
      have hws : ∀ b ∈ before ++ behind, isHttpWs b = true :=
        fun b hb => (List.mem_append.1 hb).elim (hbefore b) (hbehind b)
      rw [List.nil_append, ← List.append_assoc]
      refine (headers_ows hstage hnext hws (b := 0x0d) rfl).trans ?_
      exact @headers_value η onHeader { ctx with stage := .value } env _ rfl hnil [] [] hvalue nofun (fun _ => rfl) _ hcheck
  | cons b value =>
      refine (headers_ows hstage hnext hbefore (hvalue.2.1 b rfl)).trans ?_
      exact @headers_value η onHeader { ctx with stage := .value } env _ rfl hnil _ _ hvalue hbehind nofun _ hcheck

/-- A field is reported, and the parser is ready for the next one. -/
theorem run_field {header : Bytes × Bytes} {headers : Headers} (hwell : Headers.WellFormed (header :: headers))
    (hready : ctx.Ready (header :: headers)) {line : Bytes} (hline : FieldLine header.1 header.2 line) :
    ∃ ctx', ctx'.Ready headers ∧ ∀ env rest, (headersMachine (some f)).run (ctx, env) (line ++ rest) =
      (headersMachine (some f)).run (ctx', f env header.1 header.2) rest := by
  have hname := hwell.name header List.mem_cons_self
  have hvalue := hwell.value header List.mem_cons_self
  have hdistinct := (List.pairwise_cons.1 hwell.distinct).1
  have hduplicate : { ctx with name := header.1 }.Allows (header :: headers) :=
    ⟨hready.allows.host, hready.allows.connection, hready.allows.upgrade, hready.allows.transferEncoding⟩
  obtain ⟨ctx₁, hcheck₁, hallows₁, hname₁, hvalue₁, hfirst₁⟩ := checkDuplicate_allows hduplicate rfl hdistinct
  have hlength : { ctx₁ with value := header.2, stage := .value }.AllowsLength (header :: headers) := by
    intro hfirst
    exact hready.allowsLength (by rw [← hfirst₁]; exact hfirst)
  obtain ⟨n, hcheck₂, hlength₂⟩ := checkContentLength_allows hlength hname₁ rfl hdistinct
    (hwell.length header List.mem_cons_self)
  refine ⟨{ ctx₁ with name := [], value := [], firstContentLength := n, stage := .nameAndColon },
    ⟨rfl, rfl, rfl, ⟨hallows₁.host, hallows₁.connection, hallows₁.upgrade, hallows₁.transferEncoding⟩, hlength₂⟩, ?_⟩
  intro env rest
  cases hline with
  | @mk before behind hbefore hbehind =>
      have htext : header.1 ++ 0x3a :: (before ++ (header.2 ++ (behind ++ crlf))) ++ rest =
          header.1 ++ 0x3a :: (before ++ (header.2 ++ (behind ++ 0x0d :: 0x0a :: rest))) := by
        simp only [List.append_assoc, List.cons_append]
        rfl
      rw [htext]
      refine (headers_name hready.stage hready.name hname hcheck₁).trans ?_
      refine (@headers_spaced η f { ctx₁ with stage := .ows .value } env _ rfl (hvalue₁.trans hready.value) _ _ _ hbefore
        hvalue hbehind _ hcheck₂).trans ?_
      refine (headers_report rfl ?_).trans ?_
      · change ctx₁.name ≠ []
        rw [hname₁]
        exact hname.1
      refine (headers_crlf rfl).trans ?_
      simp only [hname₁]

theorem run_fields {headers : Headers} (hwell : headers.WellFormed) (hready : ctx.Ready headers) {text : Bytes}
    (htext : FieldLines headers text) :
    ∃ ctx', ctx'.Ready [] ∧ ∀ env rest, (headersMachine (some f)).run (ctx, env) (text ++ rest) =
      (headersMachine (some f)).run (ctx', headers.foldl (fun env header => f env header.1 header.2) env) rest := by
  induction htext generalizing ctx with
  | nil => exact ⟨ctx, hready, fun env rest => rfl⟩
  | cons hline _ ih =>
      have hbehind : Headers.WellFormed _ := ⟨fun h hh => hwell.name h (List.mem_cons_of_mem _ hh),
        fun h hh => hwell.value h (List.mem_cons_of_mem _ hh), (List.pairwise_cons.1 hwell.distinct).2,
        fun h hh => hwell.length h (List.mem_cons_of_mem _ hh)⟩
      obtain ⟨ctx₁, hready₁, hrun₁⟩ := run_field (f := f) hwell hready hline
      obtain ⟨ctx₂, hready₂, hrun₂⟩ := ih hbehind hready₁
      refine ⟨ctx₂, hready₂, fun env rest => ?_⟩
      rw [List.append_assoc, hrun₁, hrun₂]
      rfl

/-- Fields and the line that ends them, in front of any text. -/
theorem parseHeaders_fields {headers : Headers} (hwell : headers.WellFormed) {text : Bytes}
    (htext : FieldLines headers text) :
    ∃ ctx' : ParseHeadersContext, ctx'.stage = .done ∧ ∀ env rest, parseHeaders (some f) {} env (text ++ crlf ++ rest) =
      ⟨(ctx', headers.foldl (fun env header => f env header.1 header.2) env), rest, none⟩ := by
  obtain ⟨ctx₁, hready, hrun⟩ := run_fields (f := f) hwell (ready_new headers) htext
  refine ⟨{ ctx₁ with stage := .done }, rfl, fun env rest => ?_⟩
  change (headersMachine (some f)).parse _ _ _ _ = _
  rw [Machine.parse, List.append_assoc, hrun, headers_end hready.stage hready.name]
  rfl

end

end Rad.Http
