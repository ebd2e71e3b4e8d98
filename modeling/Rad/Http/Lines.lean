import Rad.Http.Tokens
import Rad.Lib.Incremental

/-!
# The request line and the status line (src/net/http/http_parser.cpp)

`parse_request_line` and `parse_status_line`: the context with which a call goes on where the one before it stopped, the
turns of the loop, and the call. The `next_stage` and the `last_ec` of a context are looked at in one of its stages
only, and stand there.
-/

namespace Rad.Http

open Lib

/-! ## The request line -/

/-- `next_stage` in the stage `sp`. -/
inductive RequestLineNext where
  | targetStart
  | httpSlash
  deriving DecidableEq

inductive RequestLineStage where
  | method
  | sp (next : RequestLineNext)
  | targetStart
  | target
  | httpSlash
  | version
  | cr
  | lf
  | done
  | error (lastEc : Error)
  deriving DecidableEq

def RequestLineNext.stage : RequestLineNext → RequestLineStage
  | .targetStart => .targetStart
  | .httpSlash => .httpSlash

structure ParseRequestLineContext where
  method : Verb := .invalid
  version : Version := .v1_0
  target : Bytes := []
  stage : RequestLineStage := .method
  deriving DecidableEq

/-- `to_uint16(from, 10, ec)`: whether there is no error. -/
def isUint16 (text : Bytes) : Bool := text != [] && text.all isDigit && decide (decimalValue text < 2 ^ 16)

/-- `validate_target` for the target of a method. -/
def validateTarget (method : Verb) (target : Bytes) : Option Error :=
  if method ≠ .connect then none
  else
    match target.findIdx? (· == 0x3a) with
    | none => some .badTarget
    | some colonPos =>
      let hostPart := target.take colonPos
      let portPart := target.drop (colonPos + 1)
      if colonPos = 0 then some .badTarget
      else if isUint16 portPart = false then some .badTarget
      else if hostPart.head? = some 0x2d ∨ hostPart.getLast? = some 0x2d then some .badTarget
      else none

/-- One turn of the loop of `parse_request_line`, on the characters `ch :: tail`. -/
def requestLineTurn (ctx : ParseRequestLineContext) (ch : UInt8) (tail : Bytes) :
    Turn ParseRequestLineContext UInt8 Error :=
  match ctx.stage with
  | .method =>
    match parseHttpMethod (ch :: tail) with
    | .error e => .fail ctx (ch :: tail) e
    | .ok none => .stop ctx (ch :: tail)
    | .ok (some (method, rest)) => .next { ctx with method, stage := .sp .targetStart } rest
  | .sp next =>
    if isHttpSp ch then .next { ctx with stage := next.stage } tail else .fail ctx (ch :: tail) .badMethod
  | .targetStart =>
    if ch = 0x2a ∧ ctx.method ≠ .options ∨ ch = 0x2f ∧ ctx.method = .connect ∨ isHttpVchar ch = false then
      .fail ctx (ch :: tail) .badTarget
    else
      .next { ctx with target := ctx.target ++ [ch], stage := if ch = 0x2a then .sp .httpSlash else .target } tail
  | .target =>
    match parseTargetAndSp ctx.target (ch :: tail) with
    | .failed target e => .fail { ctx with target } (ch :: tail) e
    | .more target => .stop { ctx with target } []
    | .finished target rest =>
      match validateTarget ctx.method target with
      | some e => .fail { ctx with target } rest e
      | none => .next { ctx with target, stage := .httpSlash } rest
  | .httpSlash =>
    match parseHttpSlash (ch :: tail) with
    | .error e => .fail ctx (ch :: tail) e
    | .ok none => .stop ctx (ch :: tail)
    | .ok (some rest) => .next { ctx with stage := .version } rest
  | .version =>
    match parseHttpVersion (ch :: tail) with
    | .error e => .fail ctx (ch :: tail) e
    | .ok none => .stop ctx (ch :: tail)
    | .ok (some (version, rest)) => .next { ctx with version, stage := .cr } rest
  | .cr => if ch = 0x0d then .next { ctx with stage := .lf } tail else .fail ctx (ch :: tail) .badLineEnding
  | .lf => if ch = 0x0a then .next { ctx with stage := .done } tail else .fail ctx (ch :: tail) .badLineEnding
  | .done => .stop ctx (ch :: tail)
  | .error _ => .stop ctx (ch :: tail)

/-- Each turn behind which the loop goes on consumes something. -/
theorem requestLineTurn_less {ctx ctx' : ParseRequestLineContext} {ch : UInt8} {tail rest : Bytes}
    (h : requestLineTurn ctx ch tail = .next ctx' rest) : rest.length < (ch :: tail).length := by
  rw [requestLineTurn] at h
  split at h
  · split at h
    · cases h
    · cases h
    · rename_i hmethod
      cases h
      exact (parseHttpMethod_rest hmethod).2
  · split at h <;> cases h
    exact Nat.lt_succ_self _
  · split at h <;> cases h
    exact Nat.lt_succ_self _
  · split at h
    · cases h
    · cases h
    · rename_i htarget
      split at h
      · cases h
      · cases h
        exact (scanToken_rest htarget).2 fun t ch => by split_ifs <;> nofun
  · split at h
    · cases h
    · cases h
    · rename_i hslash
      cases h
      exact (parseHttpSlash_rest hslash).2
  · split at h
    · cases h
    · cases h
    · rename_i hversion
      cases h
      exact (parseHttpVersion_rest hversion).2
  · split at h <;> cases h
    exact Nat.lt_succ_self _
  · split at h <;> cases h
    exact Nat.lt_succ_self _
  · cases h
  · cases h

def requestLineMachine : Machine ParseRequestLineContext UInt8 Error where
  turn := requestLineTurn
  measure _ t := t.length
  less := requestLineTurn_less

/-- The error with which all further calls return. -/
def ParseRequestLineContext.lastError (ctx : ParseRequestLineContext) : Option Error :=
  match ctx.stage with
  | .error e => some e
  | _ => none

def ParseRequestLineContext.failWith (ctx : ParseRequestLineContext) (e : Error) : ParseRequestLineContext :=
  { ctx with stage := .error e }

def parseRequestLine (ctx : ParseRequestLineContext) (input : Bytes) : Outcome ParseRequestLineContext UInt8 Error :=
  requestLineMachine.parse ParseRequestLineContext.lastError ParseRequestLineContext.failWith ctx input

/-! ## The status line -/

/-- `next_stage` in the stage `sp`. -/
inductive StatusLineNext where
  | status
  | reasonStartOrCr
  deriving DecidableEq

inductive StatusLineStage where
  | httpSlash
  | version
  | sp (next : StatusLineNext)
  | status
  | reasonStartOrCr
  | reason
  | lf
  | done
  | error (lastEc : Error)
  deriving DecidableEq

def StatusLineNext.stage : StatusLineNext → StatusLineStage
  | .status => .status
  | .reasonStartOrCr => .reasonStartOrCr

structure ParseStatusLineContext where
  version : Version := .v1_0
  status : Nat := 0
  reason : Bytes := []
  stage : StatusLineStage := .httpSlash
  deriving DecidableEq

/-- One turn of the loop of `parse_status_line`, on the characters `ch :: tail`. -/
def statusLineTurn (ctx : ParseStatusLineContext) (ch : UInt8) (tail : Bytes) :
    Turn ParseStatusLineContext UInt8 Error :=
  match ctx.stage with
  | .httpSlash =>
    match parseHttpSlash (ch :: tail) with
    | .error e => .fail ctx (ch :: tail) e
    | .ok none => .stop ctx (ch :: tail)
    | .ok (some rest) => .next { ctx with stage := .version } rest
  | .version =>
    match parseHttpVersion (ch :: tail) with
    | .error e => .fail ctx (ch :: tail) e
    | .ok none => .stop ctx (ch :: tail)
    | .ok (some (version, rest)) => .next { ctx with version, stage := .sp .status } rest
  | .sp next =>
    if isHttpSp ch then .next { ctx with stage := next.stage } tail
    else .fail ctx (ch :: tail) (if next = .status then .badVersion else .badStatus)
  | .status =>
    match parseHttpStatus (ch :: tail) with
    | .error e => .fail ctx (ch :: tail) e
    | .ok none => .stop ctx (ch :: tail)
    | .ok (some (status, rest)) => .next { ctx with status, stage := .sp .reasonStartOrCr } rest
  | .reasonStartOrCr =>
    if isHttpReasonPhrase ch then .next { ctx with reason := ctx.reason ++ [ch], stage := .reason } tail
    else if ch = 0x0d then .next { ctx with stage := .lf } tail
    else .fail ctx (ch :: tail) .badLineEnding
  | .reason =>
    match parseReasonPhraseAndCr ctx.reason (ch :: tail) with
    | .failed reason e => .fail { ctx with reason } (ch :: tail) e
    | .more reason => .stop { ctx with reason } []
    | .finished reason rest => .next { ctx with reason, stage := .lf } rest
  | .lf => if ch = 0x0a then .stop { ctx with stage := .done } tail else .fail ctx (ch :: tail) .badLineEnding
  | .done => .stop ctx (ch :: tail)
  | .error _ => .stop ctx (ch :: tail)

/-- Each turn behind which the loop goes on consumes something. -/
theorem statusLineTurn_less {ctx ctx' : ParseStatusLineContext} {ch : UInt8} {tail rest : Bytes}
    (h : statusLineTurn ctx ch tail = .next ctx' rest) : rest.length < (ch :: tail).length := by
  rw [statusLineTurn] at h
  split at h
  · split at h
    · cases h
    · cases h
    · rename_i hslash
      cases h
      exact (parseHttpSlash_rest hslash).2
  · split at h
    · cases h
    · cases h
    · rename_i hversion
      cases h
      exact (parseHttpVersion_rest hversion).2
  · split at h <;> cases h
    exact Nat.lt_succ_self _
  · split at h
    · cases h
    · cases h
    · rename_i hstatus
      cases h
      exact (parseHttpStatus_rest hstatus).2
  · split at h
    · cases h
      exact Nat.lt_succ_self _
    split at h <;> cases h
    exact Nat.lt_succ_self _
  · split at h
    · cases h
    · cases h
    · rename_i hreason
      cases h
      exact (scanToken_rest hreason).2 fun t ch => by split_ifs <;> nofun
  · split at h <;> cases h
  · cases h
  · cases h

def statusLineMachine : Machine ParseStatusLineContext UInt8 Error where
  turn := statusLineTurn
  measure _ t := t.length
  less := statusLineTurn_less

def ParseStatusLineContext.lastError (ctx : ParseStatusLineContext) : Option Error :=
  match ctx.stage with
  | .error e => some e
  | _ => none

def ParseStatusLineContext.failWith (ctx : ParseStatusLineContext) (e : Error) : ParseStatusLineContext :=
  { ctx with stage := .error e }

def parseStatusLine (ctx : ParseStatusLineContext) (input : Bytes) : Outcome ParseStatusLineContext UInt8 Error :=
  statusLineMachine.parse ParseStatusLineContext.lastError ParseStatusLineContext.failWith ctx input

end Rad.Http
