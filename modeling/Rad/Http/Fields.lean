import Mathlib.Data.List.DropRight
import Rad.Http.Tokens
import Rad.Lib.Incremental

/-!
# Header fields (src/net/http/http_parser.cpp)

`parse_headers`, for the headers of a message and for the trailers of a chunked body. A callback works on an environment
of its own; there may be none, as the null `function_view`.
-/

namespace Rad.Http

open Lib

/-- `header_callback`. -/
abbrev HeaderCallback (η : Type*) := Option (η → Bytes → Bytes → η)

def connectionField : Bytes := ascii "Connection"

def upgradeField : Bytes := ascii "Upgrade"

def transferEncodingField : Bytes := ascii "Transfer-Encoding"

def contentLengthField : Bytes := ascii "Content-Length"

/-- `next_stage` in the stage `ows`. -/
inductive HeadersNext where
  | value
  | cr
  deriving DecidableEq

inductive HeadersStage where
  | nameAndColon
  | ows (next : HeadersNext)
  | value
  | cr
  | lf
  | terminatingLf
  | done
  | error (lastEc : Error)
  deriving DecidableEq

def HeadersNext.stage : HeadersNext → HeadersStage
  | .value => .value
  | .cr => .cr

structure ParseHeadersContext where
  name : Bytes := []
  value : Bytes := []
  firstContentLength : Option Nat := none
  gotHost : Bool := false
  gotTransferEncoding : Bool := false
  gotConnection : Bool := false
  gotUpgrade : Bool := false
  stage : HeadersStage := .nameAndColon
  deriving DecidableEq

/-- The fields that a message has at most once: whether the name is the one of a field that is there already. -/
def ParseHeadersContext.checkDuplicate (ctx : ParseHeadersContext) : ParseHeadersContext × Bool :=
  if iequal ctx.name hostField then ({ ctx with gotHost := true }, ctx.gotHost)
  else if iequal ctx.name connectionField then ({ ctx with gotConnection := true }, ctx.gotConnection)
  else if iequal ctx.name upgradeField then ({ ctx with gotUpgrade := true }, ctx.gotUpgrade)
  else if iequal ctx.name transferEncodingField then
    ({ ctx with gotTransferEncoding := true }, ctx.gotTransferEncoding)
  else (ctx, false)

/-- A Content-Length that is there again with the same value is dropped. -/
def ParseHeadersContext.checkContentLength (ctx : ParseHeadersContext) : Except Error ParseHeadersContext :=
  if iequal ctx.name contentLengthField = false then .ok ctx
  else if (toUint64 ctx.value).2 = false then .error .badContentLength
  else
    match ctx.firstContentLength with
    | none => .ok { ctx with firstContentLength := some (toUint64 ctx.value).1 }
    | some n => if n ≠ (toUint64 ctx.value).1 then .error .badContentLength else .ok { ctx with name := [], value := [] }

section

variable {η : Type*} (onHeader : HeaderCallback η)

/-- One turn of the loop of `parse_headers`, on the characters `ch :: tail`. -/
def headersTurn (s : ParseHeadersContext × η) (ch : UInt8) (tail : Bytes) : Turn (ParseHeadersContext × η) UInt8 Error :=
  let (ctx, env) := s
  match ctx.stage with
  | .nameAndColon =>
    if ctx.name = [] ∧ ch = 0x0d then .next ({ ctx with stage := .terminatingLf }, env) tail
    else
      match parseFieldNameAndColon ctx.name (ch :: tail) with
      | .failed name e => .fail ({ ctx with name }, env) (ch :: tail) e
      | .more name => .stop ({ ctx with name }, env) []
      | .finished name rest =>
        -- header name is not allowed to be empty
        if name = [] then .fail ({ ctx with name }, env) rest .badField
        else
          let r := { ctx with name }.checkDuplicate
          if r.2 then .fail (r.1, env) rest .badField else .next ({ r.1 with stage := .ows .value }, env) rest
  | .ows next =>
    match consumeOws (ch :: tail) with
    | [] => .stop (ctx, env) []
    | b :: rest =>
      if next = .cr ∧ ctx.name ≠ [] then
        match onHeader with
        | none => .fail (ctx, env) (b :: rest) .undefined
        | some onHeader =>
          .next ({ ctx with name := [], value := [], stage := next.stage }, onHeader env ctx.name ctx.value) (b :: rest)
      else .next ({ ctx with stage := next.stage }, env) (b :: rest)
  | .value =>
    match parseFieldValue ctx.value (ch :: tail) with
    | .failed value e => .fail ({ ctx with value }, env) (ch :: tail) e
    | .more value => .stop ({ ctx with value }, env) []
    | .finished value rest =>
      let ctx := { ctx with value := value.rdropWhile isHttpWs }
      match ctx.checkContentLength with
      | .error e => .fail (ctx, env) rest e
      | .ok ctx => .next ({ ctx with stage := .ows .cr }, env) rest
  | .cr => if ch = 0x0d then .next ({ ctx with stage := .lf }, env) tail else .fail s (ch :: tail) .badLineEnding
  | .lf => if ch = 0x0a then .next ({ ctx with stage := .nameAndColon }, env) tail else .fail s (ch :: tail) .badLineEnding
  | .terminatingLf => if ch = 0x0a then .next ({ ctx with stage := .done }, env) tail else .fail s (ch :: tail) .badLineEnding
  | .done => .stop s (ch :: tail)
  | .error _ => .stop s (ch :: tail)

/-- How many turns may follow that consume nothing. -/
def HeadersStage.rank : HeadersStage → Nat
  | .ows .value => 3
  | .value => 2
  | .ows .cr => 1
  | _ => 0

def headersMeasure (s : ParseHeadersContext × η) (t : Bytes) : Nat := 4 * t.length + s.1.stage.rank

variable {onHeader}

theorem headersTurn_less {s s' : ParseHeadersContext × η} {ch : UInt8} {tail rest : Bytes}
    (h : headersTurn onHeader s ch tail = .next s' rest) : headersMeasure s' rest < headersMeasure s (ch :: tail) := by
  obtain ⟨ctx, env⟩ := s
  cases hstage : ctx.stage with
  | nameAndColon =>
      simp only [headersTurn, hstage] at h
      split at h
      · cases h
        simp only [headersMeasure, HeadersStage.rank, List.length_cons]
        omega
      split at h
      · cases h
      · cases h
      rename_i hname
      have hlt := (scanToken_rest hname).2 fun t ch => by split_ifs <;> nofun
      split at h
      · cases h
      split at h
      · cases h
      · cases h
        simp only [headersMeasure, HeadersStage.rank]
        omega
  | ows next =>
      simp only [headersTurn, hstage] at h
      split at h
      · cases h
      rename_i b rest' hows
      have hle : (b :: rest').length ≤ (ch :: tail).length := by
        rw [← hows]
        exact (List.dropWhile_sublist _).length_le
      have hrank : next.stage.rank < (HeadersStage.ows next).rank := by cases next <;> decide
      split at h
      · split at h
        · cases h
        · cases h
          simp only [headersMeasure, hstage]
          omega
      · cases h
        simp only [headersMeasure, hstage]
        omega
  | value =>
      simp only [headersTurn, hstage] at h
      split at h
      · cases h
      · cases h
      rename_i hvalue
      have hle := (scanToken_rest hvalue).1.length_le
      split at h
      · cases h
      · cases h
        simp only [headersMeasure, hstage, HeadersStage.rank]
        omega
  | cr =>
      simp only [headersTurn, hstage] at h
      split at h <;> cases h
      simp only [headersMeasure, HeadersStage.rank, List.length_cons]
      omega
  | lf =>
      simp only [headersTurn, hstage] at h
      split at h <;> cases h
      simp only [headersMeasure, HeadersStage.rank, List.length_cons]
      omega
  | terminatingLf =>
      simp only [headersTurn, hstage] at h
      split at h <;> cases h
      simp only [headersMeasure, HeadersStage.rank, List.length_cons]
      omega
  | done =>
      simp only [headersTurn, hstage] at h
      cases h
  | error e =>
      simp only [headersTurn, hstage] at h
      cases h

variable (onHeader)

def headersMachine : Machine (ParseHeadersContext × η) UInt8 Error where
  turn := headersTurn onHeader
  measure := headersMeasure
  less := headersTurn_less

def ParseHeadersContext.lastError (ctx : ParseHeadersContext) : Option Error :=
  match ctx.stage with
  | .error e => some e
  | _ => none

def ParseHeadersContext.failWith (ctx : ParseHeadersContext) (e : Error) : ParseHeadersContext :=
  { ctx with stage := .error e }

def parseHeaders (ctx : ParseHeadersContext) (env : η) (input : Bytes) : Outcome (ParseHeadersContext × η) UInt8 Error :=
  (headersMachine onHeader).parse (·.1.lastError) (fun s e => (s.1.failWith e, s.2)) (ctx, env) input

end

end Rad.Http
