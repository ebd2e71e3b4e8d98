import Rad.Http.Lemmas.Serialization
import Rad.Http.Lemmas.Waits
import Rad.Http.Serialization

/-!
# Lines that are well-formed

The parsers of lines, followed through a line in front of any text.
-/

namespace Rad.Http

open Lib

/-! ## The request line -/

section

variable {ctx : ParseRequestLineContext} {rest : Bytes}

theorem requestLineMachine_turn : requestLineMachine.turn = requestLineTurn := rfl

theorem requestLine_method (hstage : ctx.stage = .method) {e : Bytes × Verb} (he : e ∈ httpVerbs) :
    requestLineMachine.run ctx (e.1 ++ rest) =
      requestLineMachine.run { ctx with method := e.2, stage := .sp .targetStart } rest := by
  have hne : ∀ e ∈ httpVerbs, e.1 ≠ [] := by decide
  refine Machine.run_next_of (List.append_ne_nil_of_left_ne_nil (hne e he) _) fun ch tail h => ?_
  simp only [requestLineMachine_turn, requestLineTurn, hstage]
  rw [← h, parseHttpMethod_found he]

theorem requestLine_sp {next : RequestLineNext} (hstage : ctx.stage = .sp next) :
    requestLineMachine.run ctx (sp ++ rest) = requestLineMachine.run { ctx with stage := next.stage } rest := by
  refine Machine.run_next ?_
  simp only [requestLineMachine_turn, requestLineTurn, hstage]
  rfl

theorem requestLine_slash (hstage : ctx.stage = .httpSlash) :
    requestLineMachine.run ctx (httpSlash ++ rest) = requestLineMachine.run { ctx with stage := .version } rest := by
  refine Machine.run_next_of (List.append_ne_nil_of_left_ne_nil (by decide) _) fun ch tail h => ?_
  simp only [requestLineMachine_turn, requestLineTurn, hstage]
  rw [← h, parseHttpSlash_found]

theorem requestLine_version (hstage : ctx.stage = .version) {e : Bytes × Version} (he : e ∈ httpVersions) :
    requestLineMachine.run ctx (e.1 ++ rest) =
      requestLineMachine.run { ctx with version := e.2, stage := .cr } rest := by
  have hne : ∀ e ∈ httpVersions, e.1 ≠ [] := by decide
  refine Machine.run_next_of (List.append_ne_nil_of_left_ne_nil (hne e he) _) fun ch tail h => ?_
  simp only [requestLineMachine_turn, requestLineTurn, hstage]
  rw [← h, parseHttpVersion_found he]

/-- The line is done, and what is behind it is left. -/
theorem requestLine_crlf (hstage : ctx.stage = .cr) :
    requestLineMachine.run ctx (crlf ++ rest) = ⟨{ ctx with stage := .done }, rest, none⟩ := by
  have hcr : requestLineMachine.turn ctx 0x0d (0x0a :: rest) = .next { ctx with stage := .lf } (0x0a :: rest) := by
    simp only [requestLineMachine_turn, requestLineTurn, hstage]
    rfl
  refine (Machine.run_next hcr).trans ?_
  have hlf : requestLineMachine.turn { ctx with stage := .lf } 0x0a rest = .next { ctx with stage := .done } rest := rfl
  refine (Machine.run_next hlf).trans ?_
  cases rest with
  | nil => exact Machine.run_nil
  | cons ch rest => exact Machine.run_stop rfl

/-- A path, from its first character on. -/
theorem requestLine_path (hstage : ctx.stage = .targetStart) (htarget : ctx.target = []) (hmethod : ctx.method ≠ .connect)
    {target : Bytes} (hhead : target.head? = some 0x2f) (hchars : ∀ b ∈ target, 0x21 ≤ b ∧ b ≤ 0x7e) :
    requestLineMachine.run ctx (target ++ sp ++ rest) =
      requestLineMachine.run { ctx with target, stage := .httpSlash } rest := by
  cases target with
  | nil => cases hhead
  | cons ch target =>
      obtain rfl : ch = 0x2f := by simpa using hhead
      have hstart : requestLineMachine.turn ctx 0x2f (target ++ sp ++ rest) =
          .next { ctx with target := [0x2f], stage := .target } (target ++ sp ++ rest) := by
        simp only [requestLineMachine_turn, requestLineTurn, hstage]
        rw [if_neg, htarget]
        · rfl
        · rintro (⟨h, -⟩ | ⟨-, h⟩ | h)
          · cases h
          · exact hmethod h
          · cases h
      refine (Machine.run_next hstart).trans ?_
      have hscan : parseTargetAndSp [0x2f] (target ++ sp ++ rest) = .finished (0x2f :: target) rest := by
        refine parseTargetAndSp_finished.2 ⟨target, by rw [List.append_assoc]; rfl, rfl, fun b hb => ?_⟩
        obtain ⟨hlow, hhigh⟩ := hchars b (List.mem_cons_of_mem _ hb)
        rw [isHttpVchar, Bool.and_eq_true, decide_eq_true_iff, decide_eq_true_iff]
        rw [UInt8.le_iff_toNat_le] at hlow
        refine ⟨?_, ?_, hhigh⟩
        · rintro rfl
          exact absurd hlow (by decide)
        · rw [UInt8.le_iff_toNat_le]
          exact Nat.le_trans (by decide) hlow
      refine Machine.run_next_of (List.append_ne_nil_of_left_ne_nil (List.append_ne_nil_of_right_ne_nil _ (by decide)) _) fun b u h => ?_
      simp only [requestLineMachine_turn, requestLineTurn]
      rw [← h, hscan]
      simp only [validateTarget, if_pos hmethod]

/-- The target of a request for the server as a whole. -/
theorem requestLine_asterisk (hstage : ctx.stage = .targetStart) (htarget : ctx.target = []) (hmethod : ctx.method = .options) :
    requestLineMachine.run ctx ([0x2a] ++ sp ++ rest) =
      requestLineMachine.run { ctx with target := [0x2a], stage := .httpSlash } rest := by
  have hstart : requestLineMachine.turn ctx 0x2a (sp ++ rest) =
      .next { ctx with target := [0x2a], stage := .sp .httpSlash } (sp ++ rest) := by
    simp only [requestLineMachine_turn, requestLineTurn, hstage]
    rw [if_neg, htarget]
    · rfl
    · rintro (⟨-, h⟩ | ⟨h, -⟩ | h)
      · exact h hmethod
      · cases h
      · cases h
  refine (Machine.run_next hstart).trans ((requestLine_sp rfl).trans ?_)
  rfl

end

theorem verbToString_mem {v : Verb} (h : v ≠ .invalid) : (verbToString v, v) ∈ httpVerbs := by
  cases v with
  | invalid => exact absurd rfl h
  | _ => decide

theorem versionToString_mem {v : Version} (h : v ≠ .invalid) : (versionToString v, v) ∈ httpVersions := by
  cases v with
  | invalid => exact absurd rfl h
  | _ => decide

theorem parseRequestLine_line {req : Request} (h : req.WellFormed) (rest : Bytes) :
    parseRequestLine {} (req.line ++ rest) =
      ⟨{ method := req.method, version := req.version, target := req.target, stage := .done }, rest, none⟩ := by
  have hrun : requestLineMachine.run {} (req.line ++ rest) =
      ⟨{ method := req.method, version := req.version, target := req.target, stage := .done }, rest, none⟩ := by
    have htarget : ∀ rest, requestLineMachine.run { method := req.method, stage := .targetStart } (req.target ++ sp ++ rest) =
        requestLineMachine.run { method := req.method, target := req.target, stage := .httpSlash } rest := by
      intro rest
      rcases h.start with hpath | ⟨hasterisk, hmethod⟩
      · exact requestLine_path rfl rfl h.method.2 hpath h.target
      · rw [hasterisk]
        exact requestLine_asterisk rfl rfl hmethod
    have hline : req.line ++ rest = verbToString req.method ++ (sp ++ (req.target ++ sp ++
        (httpSlash ++ (versionToString req.version ++ (crlf ++ rest))))) := by
      simp only [Request.line, List.append_assoc]
    rw [hline]
    refine (requestLine_method rfl (verbToString_mem h.method.1)).trans ?_
    refine (requestLine_sp rfl).trans ?_
    refine (htarget _).trans ?_
    refine (requestLine_slash rfl).trans ?_
    refine (requestLine_version rfl (versionToString_mem h.version)).trans ?_
    exact requestLine_crlf rfl
  change requestLineMachine.parse _ _ {} _ = _
  rw [Machine.parse, hrun]
  rfl

/-! ## The status line -/

section

variable {ctx : ParseStatusLineContext} {rest : Bytes}

theorem statusLineMachine_turn : statusLineMachine.turn = statusLineTurn := rfl

theorem statusLine_slash (hstage : ctx.stage = .httpSlash) :
    statusLineMachine.run ctx (httpSlash ++ rest) = statusLineMachine.run { ctx with stage := .version } rest := by
  refine Machine.run_next_of (List.append_ne_nil_of_left_ne_nil (by decide) _) fun ch tail h => ?_
  simp only [statusLineMachine_turn, statusLineTurn, hstage]
  rw [← h, parseHttpSlash_found]

theorem statusLine_version (hstage : ctx.stage = .version) {e : Bytes × Version} (he : e ∈ httpVersions) :
    statusLineMachine.run ctx (e.1 ++ rest) =
      statusLineMachine.run { ctx with version := e.2, stage := .sp .status } rest := by
  have hne : ∀ e ∈ httpVersions, e.1 ≠ [] := by decide
  refine Machine.run_next_of (List.append_ne_nil_of_left_ne_nil (hne e he) _) fun ch tail h => ?_
  simp only [statusLineMachine_turn, statusLineTurn, hstage]
  rw [← h, parseHttpVersion_found he]

theorem statusLine_sp {next : StatusLineNext} (hstage : ctx.stage = .sp next) :
    statusLineMachine.run ctx (sp ++ rest) = statusLineMachine.run { ctx with stage := next.stage } rest := by
  refine Machine.run_next ?_
  simp only [statusLineMachine_turn, statusLineTurn, hstage]
  rfl

theorem statusLine_status (hstage : ctx.stage = .status) {n : Nat} (hlow : 100 ≤ n) (hhigh : n ≤ 999) :
    statusLineMachine.run ctx (toDecimal n ++ rest) =
      statusLineMachine.run { ctx with status := n, stage := .sp .reasonStartOrCr } rest := by
  refine Machine.run_next_of (List.append_ne_nil_of_left_ne_nil ?_ _) fun ch tail h => ?_
  · rw [toDecimal]
    simp
  · simp only [statusLineMachine_turn, statusLineTurn, hstage]
    rw [← h, parseHttpStatus_toDecimal hlow hhigh]

/-- The reason up to the line feed. -/
theorem statusLine_reason (hstage : ctx.stage = .reasonStartOrCr) (hreason : ctx.reason = []) {reason : Bytes}
    (hchars : ∀ b ∈ reason, isHttpReasonPhrase b = true) :
    statusLineMachine.run ctx (reason ++ crlf ++ rest) = ⟨{ ctx with reason, stage := .done }, rest, none⟩ := by
  have hlf : ∀ ctx : ParseStatusLineContext, ctx.stage = .lf →
      statusLineMachine.run ctx (0x0a :: rest) = ⟨{ ctx with stage := .done }, rest, none⟩ := by
    intro ctx hstage
    refine Machine.run_stop ?_
    simp only [statusLineMachine_turn, statusLineTurn, hstage]
    rfl
  cases reason with
  | nil =>
      have hcr : statusLineMachine.turn ctx 0x0d (0x0a :: rest) = .next { ctx with stage := .lf } (0x0a :: rest) := by
        simp only [statusLineMachine_turn, statusLineTurn, hstage]
        rfl
      refine (Machine.run_next hcr).trans ((hlf _ rfl).trans ?_)
      rw [hreason]
  | cons ch reason =>
      have hstart : statusLineMachine.turn ctx ch (reason ++ crlf ++ rest) =
          .next { ctx with reason := [ch], stage := .reason } (reason ++ crlf ++ rest) := by
        simp only [statusLineMachine_turn, statusLineTurn, hstage]
        rw [if_pos (hchars ch List.mem_cons_self), hreason]
        rfl
      refine (Machine.run_next hstart).trans ?_
      have hscan : parseReasonPhraseAndCr [ch] (reason ++ crlf ++ rest) = .finished (ch :: reason) (0x0a :: rest) := by
        rw [parseReasonPhraseAndCr, List.append_assoc, scanToken_append]
        · rfl
        · intro y b z hsplit
          exact if_pos (hchars b (List.mem_cons_of_mem _ (by simp [hsplit])))
      have hne : reason ++ crlf ++ rest ≠ [] :=
        List.append_ne_nil_of_left_ne_nil (List.append_ne_nil_of_right_ne_nil _ (by decide)) _
      have hrun : statusLineMachine.run { ctx with reason := [ch], stage := .reason } (reason ++ crlf ++ rest) =
          statusLineMachine.run { ctx with reason := ch :: reason, stage := .lf } (0x0a :: rest) := by
        refine Machine.run_next_of hne fun b u h => ?_
        simp only [statusLineMachine_turn, statusLineTurn]
        rw [← h, hscan]
      exact hrun.trans (hlf _ rfl)

end

theorem parseStatusLine_line {res : Response} (h : res.WellFormed) (rest : Bytes) :
    parseStatusLine {} (res.line ++ rest) =
      ⟨{ version := res.version, status := res.status, reason := res.reason, stage := .done }, rest, none⟩ := by
  have hrun : statusLineMachine.run {} (res.line ++ rest) =
      ⟨{ version := res.version, status := res.status, reason := res.reason, stage := .done }, rest, none⟩ := by
    have hline : res.line ++ rest = httpSlash ++ (versionToString res.version ++ (sp ++ (toDecimal res.status ++ (sp ++
        (res.reason ++ crlf ++ rest))))) := by
      simp only [Response.line, List.append_assoc]
    rw [hline]
    refine (statusLine_slash rfl).trans ?_
    refine (statusLine_version rfl (versionToString_mem h.version)).trans ?_
    refine (statusLine_sp rfl).trans ?_
    refine (statusLine_status rfl h.status.1 h.status.2).trans ?_
    refine (statusLine_sp rfl).trans ?_
    exact statusLine_reason rfl rfl h.reason
  change statusLineMachine.parse _ _ {} _ = _
  rw [Machine.parse, hrun]
  rfl

end Rad.Http
