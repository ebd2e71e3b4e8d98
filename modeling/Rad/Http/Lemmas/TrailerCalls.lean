import Rad.Http.Lemmas.ChunkCalls

/-!
# Trailers without a callback

The first field behind the last chunk has the null callback called where it is there as a whole.
-/

namespace Rad.Http

open Lib

section

variable {η : Type*}

/-- The run comes to a call. -/
def HeadersUndefined (ctx : ParseHeadersContext) (env : η) (t : Bytes) : Prop :=
  ((headersMachine none).run (ctx, env) t).error = some .undefined

variable {ctx ctx' : ParseHeadersContext} {env : η} {t rest : Bytes} {b : UInt8} {e : Error}

theorem headersUndefined_nil : ¬HeadersUndefined ctx env [] := by
  rw [HeadersUndefined, Machine.run_nil]
  nofun

theorem headersUndefined_next (h : headersTurn none (ctx, env) b t = .next (ctx', env) rest) :
    HeadersUndefined ctx env (b :: t) ↔ HeadersUndefined ctx' env rest := by
  rw [HeadersUndefined, HeadersUndefined, Machine.run_next h]

theorem headersUndefined_stop {s' : ParseHeadersContext × η} (h : headersTurn none (ctx, env) b t = .stop s' rest) :
    ¬HeadersUndefined ctx env (b :: t) := by
  rw [HeadersUndefined, Machine.run_stop h]
  nofun

theorem headersUndefined_fail {s' : ParseHeadersContext × η} (h : headersTurn none (ctx, env) b t = .fail s' rest e) :
    HeadersUndefined ctx env (b :: t) ↔ e = .undefined := by
  rw [HeadersUndefined, Machine.run_fail h]
  exact Option.some_inj

/-! ## Values -/

theorem fieldContent_iff {value : Bytes} (hstart : ∀ b, value.head? = some b → isHttpWs b = false) :
    (∀ y b z, value = y ++ b :: z → isFieldContent y b = true) ↔ ∀ b ∈ value, isFieldVchar b = true ∨ isHttpWs b = true := by
  have hws : ∀ b, (isHttpSp b || b == 0x09) = isHttpWs b := fun b => rfl
  constructor
  · intro h b hb
    obtain ⟨y, z, rfl⟩ := List.append_of_mem hb
    have hcontent := h y b z rfl
    rw [isFieldContent, hws, Bool.or_eq_true, Bool.and_eq_true] at hcontent
    exact hcontent.imp_right And.right
  · rintro h y b z rfl
    rw [isFieldContent, hws, Bool.or_eq_true, Bool.and_eq_true]
    refine (h b (by simp)).imp_right fun hb => ⟨?_, hb⟩
    cases y with
    | nil =>
        rw [hstart b rfl] at hb
        cases hb
    | cons c y => rfl

theorem parseFieldValue_finished {value : Bytes} :
    parseFieldValue [] t = .finished value rest ↔
      ∃ u, rest = 0x0d :: u ∧ t = value ++ 0x0d :: u ∧ ∀ y b z, value = y ++ b :: z → isFieldContent y b = true := by
  have hcr : ∀ value, isFieldContent value 0x0d = false := fun value => by
    simp [isFieldContent, isFieldVchar, isHttpVchar, isHttpObsText, isHttpSp]
  rw [parseFieldValue, scanToken_finished_before_iff fun _ c => by split_ifs <;> simp]
  constructor
  · rintro ⟨x, ch, u, rfl, rfl, rfl, hends, hpush⟩
    obtain rfl : ch = 0x0d := by
      split_ifs at hends with hcontent hch
      exact hch
    refine ⟨u, rfl, rfl, fun y b z hsplit => ?_⟩
    have hact := hpush y b z hsplit
    split_ifs at hact with hcontent
    exact hcontent
  · rintro ⟨u, rfl, rfl, hpush⟩
    refine ⟨value, 0x0d, u, rfl, rfl, rfl, ?_, fun y b z hsplit => if_pos (hpush y b z hsplit)⟩
    rw [hcr]
    rfl

/-- The value of the field `name` and the end of its line. -/
def ValueFirst (name t : Bytes) : Prop :=
  ∃ value rest, t = value ++ 0x0d :: rest ∧ (∀ b ∈ value, isFieldVchar b = true ∨ isHttpWs b = true) ∧
    (∀ b, value.head? = some b → isHttpWs b = false) ∧
    (iequal name contentLengthField = true → (toUint64 (value.rdropWhile isHttpWs)).2 = true)

theorem valueFirst_starts {name : Bytes} (h : ValueFirst name t) : StartsFree t := by
  obtain ⟨value, rest, rfl, -, hstart, -⟩ := h
  cases value with
  | nil => exact ⟨0x0d, rest, rfl, rfl⟩
  | cons b value => exact ⟨b, _, rfl, hstart b rfl⟩

theorem checkContentLength_first (hfirst : ctx.firstContentLength = none) :
    (iequal ctx.name contentLengthField = true → (toUint64 ctx.value).2 = true) ∧
      (∃ ctx', ctx.checkContentLength = .ok ctx' ∧ ctx'.name = ctx.name) ∨
    ¬(iequal ctx.name contentLengthField = true → (toUint64 ctx.value).2 = true) ∧
      ctx.checkContentLength = .error .badContentLength := by
  cases hlength : iequal ctx.name contentLengthField with
  | false => exact .inl ⟨(by simp), ctx, by rw [ParseHeadersContext.checkContentLength, if_pos hlength], rfl⟩
  | true =>
      have hnot : ¬iequal ctx.name contentLengthField = false := by rw [hlength]; simp
      cases hvalue : (toUint64 ctx.value).2 with
      | false =>
          refine .inr ⟨fun h => Bool.false_ne_true (h rfl), ?_⟩
          rw [ParseHeadersContext.checkContentLength, if_neg hnot, if_pos hvalue]
      | true =>
          refine .inl ⟨fun _ => rfl, { ctx with firstContentLength := some (toUint64 ctx.value).1 }, ?_, rfl⟩
          rw [ParseHeadersContext.checkContentLength, if_neg hnot, if_neg (by rw [hvalue]; simp), hfirst]

theorem headersUndefined_report (hstage : ctx.stage = .ows .cr) (hname : ctx.name ≠ []) :
    HeadersUndefined ctx env (0x0d :: rest) := by
  have hturn : headersTurn none (ctx, env) 0x0d rest = .fail (ctx, env) (0x0d :: rest) .undefined := by
    simp only [headersTurn, hstage]
    exact if_pos ⟨trivial, hname⟩
  exact (headersUndefined_fail hturn).2 rfl

theorem headersUndefined_value (hstage : ctx.stage = .value) (hnil : ctx.value = []) (hname : ctx.name ≠ [])
    (hfirst : ctx.firstContentLength = none) (hstarts : StartsFree t) :
    HeadersUndefined ctx env t ↔ ValueFirst ctx.name t := by
  obtain ⟨ch, t, rfl, hfree⟩ := hstarts
  have hiff : ValueFirst ctx.name (ch :: t) ↔ ∃ value rest, parseFieldValue [] (ch :: t) = .finished value rest ∧
      (iequal ctx.name contentLengthField = true → (toUint64 (value.rdropWhile isHttpWs)).2 = true) := by
    constructor
    · rintro ⟨value, rest, hsplit, hvalue, hstart, hlength⟩
      exact ⟨value, 0x0d :: rest, parseFieldValue_finished.2 ⟨rest, rfl, hsplit, (fieldContent_iff hstart).2 hvalue⟩, hlength⟩
    · rintro ⟨value, rest, hscan, hlength⟩
      obtain ⟨u, -, hsplit, hpush⟩ := parseFieldValue_finished.1 hscan
      have hstart : ∀ b, value.head? = some b → isHttpWs b = false := by
        intro b hb
        cases value with
        | nil => cases hb
        | cons c value =>
            cases hb
            cases hsplit
            exact hfree
      exact ⟨value, u, hsplit, (fieldContent_iff hstart).1 hpush, hstart, hlength⟩
  rw [hiff]
  cases hscan : parseFieldValue [] (ch :: t) with
  | more value =>
      have hturn : headersTurn none (ctx, env) ch t = .stop ({ ctx with value }, env) [] := by
        simp only [headersTurn, hstage, hnil, hscan]
      exact iff_of_false (headersUndefined_stop hturn) (by simp)
  | failed value e =>
      have hturn : headersTurn none (ctx, env) ch t = .fail ({ ctx with value }, env) (ch :: t) e := by
        simp only [headersTurn, hstage, hnil, hscan]
      have he : e = .badValue := by
        obtain ⟨x, c, hact⟩ := scanToken_failed_act hscan
        split_ifs at hact
        cases hact
        rfl
      rw [headersUndefined_fail hturn, he]
      exact iff_of_false (by simp) (by simp)
  | finished value rest =>
      obtain ⟨u, rfl, -⟩ := parseFieldValue_finished.1 hscan
      have hsame : (∃ value' rest', Scan.finished value (0x0d :: u) = .finished value' rest' ∧
          (iequal ctx.name contentLengthField = true → (toUint64 (value'.rdropWhile isHttpWs)).2 = true)) ↔
          (iequal ctx.name contentLengthField = true → (toUint64 (value.rdropWhile isHttpWs)).2 = true) := by
        constructor
        · rintro ⟨value', rest', h, hlength⟩
          cases h
          exact hlength
        · exact fun hlength => ⟨value, 0x0d :: u, rfl, hlength⟩
      rw [hsame]
      rcases @checkContentLength_first { ctx with value := value.rdropWhile isHttpWs, stage := .value } hfirst with
        ⟨hlength, ctx', hcheck, hname'⟩ | ⟨hlength, hcheck⟩
      · have hturn : headersTurn none (ctx, env) ch t = .next ({ ctx' with stage := .ows .cr }, env) (0x0d :: u) := by
          simp only [headersTurn, hstage, hnil, hscan, hcheck]
        refine (headersUndefined_next hturn).trans (iff_of_true ?_ hlength)
        exact headersUndefined_report rfl (by rwa [hname'])
      · have hturn : headersTurn none (ctx, env) ch t =
            .fail ({ ctx with value := value.rdropWhile isHttpWs, stage := .value }, env) (0x0d :: u) .badContentLength := by
          simp only [headersTurn, hstage, hnil, hscan, hcheck]
        rw [headersUndefined_fail hturn]
        exact iff_of_false (by simp) hlength

/-! ## Fields -/

theorem headersUndefined_owsValue (hstage : ctx.stage = .ows .value) (hnil : ctx.value = []) (hname : ctx.name ≠ [])
    (hfirst : ctx.firstContentLength = none) :
    HeadersUndefined ctx env t ↔ ∃ before u, t = before ++ u ∧ IsWs before ∧ ValueFirst ctx.name u := by
  rcases first_not isHttpWs t with hall | ⟨before, b, u, rfl, hbefore, hb⟩
  · refine iff_of_false ?_ ?_
    · cases t with
      | nil => exact headersUndefined_nil
      | cons ch t =>
          have hows : consumeOws (ch :: t) = [] := List.dropWhile_eq_nil_iff.2 hall
          have hturn : headersTurn none (ctx, env) ch t = .stop (ctx, env) [] := by
            simp only [headersTurn, hstage, hows]
          exact headersUndefined_stop hturn
    · rintro ⟨before, u, rfl, -, hu⟩
      obtain ⟨b, v, rfl, hb⟩ := valueFirst_starts hu
      rw [hall b (by simp)] at hb
      cases hb
  · have hrun : HeadersUndefined ctx env (before ++ b :: u) ↔ HeadersUndefined { ctx with stage := .value } env (b :: u) := by
      rw [HeadersUndefined, headers_ows hstage (by simp) hbefore hb]
      rfl
    have hvalue : HeadersUndefined { ctx with stage := .value } env (b :: u) ↔ ValueFirst ctx.name (b :: u) :=
      headersUndefined_value rfl hnil hname hfirst ⟨b, u, rfl, hb⟩
    rw [hrun, hvalue]
    constructor
    · exact fun hu => ⟨before, b :: u, rfl, hbefore, hu⟩
    · rintro ⟨before', u', hsplit, hbefore', hu'⟩
      obtain ⟨b', v, rfl, hb'⟩ := valueFirst_starts hu'
      obtain ⟨-, rfl, rfl⟩ := first_not_unique hsplit hbefore hb hbefore' hb'
      exact hu'

theorem parseFieldNameAndColon_finished {name : Bytes} :
    parseFieldNameAndColon [] t = .finished name rest ↔ t = name ++ 0x3a :: rest ∧ ∀ b ∈ name, isHttpTchar b = true := by
  rw [parseFieldNameAndColon, scanToken_finished_iff fun _ c => by split_ifs <;> simp]
  constructor
  · rintro ⟨x, ch, rfl, rfl, hends, hpush⟩
    obtain rfl : ch = 0x3a := by
      split_ifs at hends with htchar hch
      exact hch
    refine ⟨rfl, fun b hb => ?_⟩
    obtain ⟨y, z, rfl⟩ := List.append_of_mem hb
    have hact := hpush y b z rfl
    split_ifs at hact with htchar
    exact htchar
  · rintro ⟨rfl, hname⟩
    exact ⟨name, 0x3a, rfl, rfl, rfl, fun y b z hsplit => if_pos (hname b (by simp [hsplit]))⟩

theorem fieldFirst_iff : FieldFirst t ↔ ∃ name u, t = name ++ 0x3a :: u ∧ IsToken name ∧
    ∃ before v, u = before ++ v ∧ IsWs before ∧ ValueFirst name v := by
  constructor
  · rintro ⟨hname, hbefore, hvalue, hstart, hlength⟩
    exact ⟨_, _, rfl, hname, _, _, rfl, hbefore, _, _, rfl, hvalue, hstart, hlength⟩
  · rintro ⟨name, _, rfl, hname, before, _, rfl, hbefore, value, rest, rfl, hvalue, hstart, hlength⟩
    exact .mk hname hbefore hvalue hstart hlength

theorem checkDuplicate_first (name : Bytes) : ∃ ctx' : ParseHeadersContext,
    ParseHeadersContext.checkDuplicate { name } = (ctx', false) ∧ ctx'.name = name ∧ ctx'.value = [] ∧
      ctx'.firstContentLength = none := by
  rw [ParseHeadersContext.checkDuplicate]
  split_ifs <;> exact ⟨_, rfl, rfl, rfl, rfl⟩

theorem headersUndefined_terminatingLf (hstage : ctx.stage = .terminatingLf) : ¬HeadersUndefined ctx env t := by
  cases t with
  | nil => exact headersUndefined_nil
  | cons ch t =>
      by_cases hlf : ch = 0x0a
      · have hturn : headersTurn none (ctx, env) ch t = .next ({ ctx with stage := .done }, env) t := by
          simp only [headersTurn, hstage, if_pos hlf]
        rw [headersUndefined_next hturn]
        cases t with
        | nil => exact headersUndefined_nil
        | cons c t =>
            have hstop : headersTurn none ({ ctx with stage := .done }, env) c t =
                .stop ({ ctx with stage := .done }, env) (c :: t) := rfl
            exact headersUndefined_stop hstop
      · have hturn : headersTurn none (ctx, env) ch t = .fail (ctx, env) (ch :: t) .badLineEnding := by
          simp only [headersTurn, hstage, if_neg hlf]
        rw [headersUndefined_fail hturn]
        exact (by simp)

/-- A trailer is called back for exactly where it is there as a whole. -/
theorem headersUndefined_new : HeadersUndefined {} env t ↔ FieldFirst t := by
  rw [fieldFirst_iff]
  have hiff : (∃ name u, t = name ++ 0x3a :: u ∧ IsToken name ∧
        ∃ before v, u = before ++ v ∧ IsWs before ∧ ValueFirst name v) ↔
      ∃ name u, parseFieldNameAndColon [] t = .finished name u ∧ name ≠ [] ∧
        ∃ before v, u = before ++ v ∧ IsWs before ∧ ValueFirst name v := by
    simp only [parseFieldNameAndColon_finished, IsToken, and_assoc, and_left_comm]
  rw [hiff]
  cases t with
  | nil => exact iff_of_false headersUndefined_nil (by simp [parseFieldNameAndColon, scanToken])
  | cons ch t =>
      by_cases hend : ch = 0x0d
      · have hturn : headersTurn none ({}, env) ch t = .next ({ stage := .terminatingLf }, env) t := by
          rw [hend]
          rfl
        have hscan : parseFieldNameAndColon [] (ch :: t) = .failed [] .badField := by
          rw [hend]
          rfl
        rw [headersUndefined_next hturn, hscan]
        exact iff_of_false (headersUndefined_terminatingLf rfl) (by simp)
      have hnot : ¬(True ∧ ch = 0x0d) := fun h => hend h.2
      cases hscan : parseFieldNameAndColon [] (ch :: t) with
      | more name =>
          have hturn : headersTurn none ({}, env) ch t = .stop ({ name }, env) [] := by
            simp only [headersTurn, if_neg hnot, hscan]
          exact iff_of_false (headersUndefined_stop hturn) (by simp)
      | failed name e =>
          have hturn : headersTurn none ({}, env) ch t = .fail ({ name }, env) (ch :: t) e := by
            simp only [headersTurn, if_neg hnot, hscan]
          have he : e = .badField := by
            obtain ⟨x, c, hact⟩ := scanToken_failed_act hscan
            split_ifs at hact
            cases hact
            rfl
          rw [headersUndefined_fail hturn, he]
          exact iff_of_false (by simp) (by simp)
      | finished name rest =>
          have hsame : (∃ name' u, Scan.finished name rest = .finished name' u ∧ name' ≠ [] ∧
                ∃ before v, u = before ++ v ∧ IsWs before ∧ ValueFirst name' v) ↔
              name ≠ [] ∧ ∃ before v, rest = before ++ v ∧ IsWs before ∧ ValueFirst name v := by
            constructor
            · rintro ⟨name', u, h, hu⟩
              cases h
              exact hu
            · exact fun h => ⟨name, rest, rfl, h⟩
          rw [hsame]
          by_cases hname : name = []
          · have hturn : headersTurn none ({}, env) ch t = .fail ({ name }, env) rest .badField := by
              simp only [headersTurn, if_neg hnot, hscan, if_pos hname]
            rw [headersUndefined_fail hturn]
            exact iff_of_false (by simp) fun h => h.1 hname
          rw [and_iff_right hname]
          obtain ⟨ctx', hcheck, hname', hvalue', hfirst'⟩ := checkDuplicate_first name
          have hturn : headersTurn none ({}, env) ch t = .next ({ ctx' with stage := .ows .value }, env) rest := by
            simp only [headersTurn, if_neg hnot, hscan, if_neg hname, hcheck]
            rfl
          have hows : HeadersUndefined { ctx' with stage := .ows .value } env rest ↔
              ∃ before u, rest = before ++ u ∧ IsWs before ∧ ValueFirst ctx'.name u :=
            headersUndefined_owsValue rfl hvalue' (by rwa [hname']) hfirst'
          rw [headersUndefined_next hturn, hows, hname']

end

end Rad.Http
