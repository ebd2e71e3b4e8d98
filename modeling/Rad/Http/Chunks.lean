import Rad.Http.Fields

/-!
# Chunked bodies (src/net/http/http_parser.cpp)

The parsers of the parts of a chunk, and `chunks_incremental_parser`, which passes from one to the next.
-/

namespace Rad.Http

open Lib

/-! ## The size of a chunk -/

inductive ChunkSizeStage where
  | size
  | done
  | error
  deriving DecidableEq

/-- `hex_buff` stands for its first `hex_len` characters. -/
structure ParseChunkSizeContext where
  hexBuff : Bytes := []
  chunkSize : Nat := 0
  stage : ChunkSizeStage := .size
  deriving DecidableEq

def hexDigitValue (ch : UInt8) : Nat :=
  if isDigit ch then ch.toNat - 0x30 else if 0x61 ≤ ch then ch.toNat - 0x61 + 10 else ch.toNat - 0x41 + 10

/-- The value of a string of hexadecimal digits. -/
def hexValue (digits : Bytes) : Nat := digits.foldl (fun n ch => 16 * n + hexDigitValue ch) 0

/-- `to_size_t(from, 16, ec)`, like `to_uint64`. -/
def toSizeHex (text : Bytes) : Nat × Bool :=
  let digits := text.takeWhile isHttpHexDigit
  if digits = [] then (0, false)
  else if hexValue digits ≥ 2 ^ 64 then (0, false)
  else (hexValue digits, digits.length == text.length)

/-- The size of `hex_buff`. -/
def hexBuffSize : Nat := 16

def chunkSizeTurn (ctx : ParseChunkSizeContext) (ch : UInt8) (tail : Bytes) : Turn ParseChunkSizeContext UInt8 Error :=
  match ctx.stage with
  | .size =>
    if isHttpHexDigit ch then
      if hexBuffSize ≤ ctx.hexBuff.length then .fail ctx (ch :: tail) .badChunk
      else .next { ctx with hexBuff := ctx.hexBuff ++ [ch] } tail
    else if ctx.hexBuff = [] then .fail ctx (ch :: tail) .badChunk
    else if (toSizeHex ctx.hexBuff).2 = false then
      .fail { ctx with chunkSize := (toSizeHex ctx.hexBuff).1 } (ch :: tail) .badChunk
    else .stop { ctx with chunkSize := (toSizeHex ctx.hexBuff).1, stage := .done } (ch :: tail)
  | .done => .stop ctx (ch :: tail)
  | .error => .stop ctx (ch :: tail)

theorem chunkSizeTurn_less {ctx ctx' : ParseChunkSizeContext} {ch : UInt8} {tail rest : Bytes}
    (h : chunkSizeTurn ctx ch tail = .next ctx' rest) : rest.length < (ch :: tail).length := by
  rw [chunkSizeTurn] at h
  split at h
  · split at h
    · split at h <;> cases h
      exact Nat.lt_succ_self _
    · split at h
      · cases h
      · split at h <;> cases h
  · cases h
  · cases h

def chunkSizeMachine : Machine ParseChunkSizeContext UInt8 Error where
  turn := chunkSizeTurn
  measure _ t := t.length
  less := chunkSizeTurn_less

def ParseChunkSizeContext.lastError (ctx : ParseChunkSizeContext) : Option Error :=
  if ctx.stage = .error then some .badChunk else none

def parseChunkSize (ctx : ParseChunkSizeContext) (input : Bytes) : Outcome ParseChunkSizeContext UInt8 Error :=
  chunkSizeMachine.parse ParseChunkSizeContext.lastError (fun ctx _ => { ctx with stage := .error }) ctx input

/-! ## The extensions of a chunk -/

/-- `chunk_extension_callback`: null, or something that is called with an extension and may refuse it. What is called may be a
null view itself, and the call is undefined then. -/
abbrev ChunkExtensionCallback (η : Type*) := Option (η → Bytes → Bytes → Option (η × Bool))

/-- A call, whether or not the view is null. -/
def ChunkExtensionCallback.call {η : Type*} (callback : ChunkExtensionCallback η) (env : η) (name value : Bytes) :
    Option (η × Bool) :=
  match callback with
  | none => none
  | some callback => callback env name value

/-- What becomes of a variable that is passed on by value: the constructor template of `function_view`, which takes anything that
can be called, is a better match for it than the copy constructor, so this is a view of the variable, and never null. -/
def ChunkExtensionCallback.ofVariable {η : Type*} (callback : ChunkExtensionCallback η) : ChunkExtensionCallback η :=
  some callback.call

/-- `next_stage` in the stage `bws`. -/
inductive ExtensionsNext where
  | colon
  | name
  | eqOrColon
  | valueStart
  deriving DecidableEq

/-- `undefined` stands for what is behind a call of a null view. -/
inductive ExtensionsStage where
  | check
  | bws (next : ExtensionsNext)
  | colon
  | name
  | eqOrColon
  | valueStart
  | tokenValue
  | quotedValue
  | reportNameValue
  | done
  | error
  | undefined
  deriving DecidableEq

def ExtensionsNext.stage : ExtensionsNext → ExtensionsStage
  | .colon => .colon
  | .name => .name
  | .eqOrColon => .eqOrColon
  | .valueStart => .valueStart

structure ParseChunkExtensionsContext where
  name : Bytes := []
  value : Bytes := []
  stage : ExtensionsStage := .check
  deriving DecidableEq

section

variable {η : Type*} (callback : ChunkExtensionCallback η)

/-- `callback && !callback(name, value)`, with the error that comes of it. -/
def callExtension (env : η) (name value : Bytes) : η × Option Error :=
  if callback.isNone then (env, none)
  else
    match callback.call env name value with
    | none => (env, some .undefined)
    | some (env, true) => (env, none)
    | some (env, false) => (env, some .badChunkExtension)

/-- One turn of the loop of `parse_chunk_extensions`, on the characters `ch :: tail`. -/
def extensionsTurn (s : ParseChunkExtensionsContext × η) (ch : UInt8) (tail : Bytes) :
    Turn (ParseChunkExtensionsContext × η) UInt8 Error :=
  let (ctx, env) := s
  match ctx.stage with
  | .check =>
    if isHttpWs ch then .next ({ ctx with stage := .bws .colon }, env) tail
    else if ch = 0x3b then .next ({ ctx with stage := .bws .name }, env) tail
    else .stop ({ ctx with stage := .done }, env) (ch :: tail)
  | .bws next =>
    match consumeOws (ch :: tail) with
    | [] => .stop (ctx, env) []
    | b :: rest => .next ({ ctx with stage := next.stage }, env) (b :: rest)
  | .colon =>
    if ch ≠ 0x3b then .fail (ctx, env) (ch :: tail) .badChunkExtension
    else .next ({ ctx with stage := .bws .name }, env) tail
  | .name =>
    match parseExtTokenNameValue ctx.name (ch :: tail) with
    | .failed name e => .fail ({ ctx with name }, env) (ch :: tail) e
    | .more name => .stop ({ ctx with name }, env) []
    | .finished name rest =>
      -- empty names are not allowed
      if name = [] then .fail ({ ctx with name }, env) rest .badChunkExtension
      else
        match rest with
        | [] => .fail ({ ctx with name }, env) [] .badChunkExtension
        | b :: rest =>
          if b = 0x3d then .next ({ ctx with name, stage := .bws .valueStart }, env) rest
          else if isHttpWs b then .next ({ ctx with name, stage := .bws .eqOrColon }, env) (b :: rest)
          else
            -- last name without value
            let r := callExtension callback env name []
            match r.2 with
            | none => .stop ({ ctx with name := [], stage := .done }, r.1) (b :: rest)
            | some e => .fail ({ ctx with name := [], stage := .done }, r.1) (b :: rest) e
  | .eqOrColon =>
    if ch = 0x3d then .next ({ ctx with stage := .bws .valueStart }, env) tail
    else if ch = 0x3b then
      let r := callExtension callback env ctx.name []
      match r.2 with
      | none => .next ({ ctx with name := [], stage := .bws .name }, r.1) tail
      | some e => .fail ({ ctx with name := [], stage := .bws .name }, r.1) tail e
    else .fail (ctx, env) (ch :: tail) .badChunkExtension
  | .valueStart =>
    if ch = 0x22 then .next ({ ctx with stage := .quotedValue }, env) tail
    else if isHttpTchar ch then .next ({ ctx with value := ctx.value ++ [ch], stage := .tokenValue }, env) tail
    else .fail (ctx, env) (ch :: tail) .badChunkExtension
  | .tokenValue =>
    match parseExtTokenNameValue ctx.value (ch :: tail) with
    | .failed value e => .fail ({ ctx with value }, env) (ch :: tail) e
    | .more value => .stop ({ ctx with value }, env) []
    | .finished value rest => .next ({ ctx with value, stage := .reportNameValue }, env) rest
  | .quotedValue =>
    match parseQdtext ctx.value (ch :: tail) with
    | .failed value e => .fail ({ ctx with value }, env) (ch :: tail) e
    | .more value => .stop ({ ctx with value }, env) []
    | .finished value rest => .next ({ ctx with value, stage := .reportNameValue }, env) rest
  | .reportNameValue =>
    let r := callExtension callback env ctx.name ctx.value
    match r.2 with
    | none => .next ({ ctx with name := [], value := [], stage := .check }, r.1) (ch :: tail)
    | some e => .fail (ctx, r.1) (ch :: tail) e
  | .done => .stop s (ch :: tail)
  | .error => .stop s (ch :: tail)
  | .undefined => .stop s (ch :: tail)

/-- How many turns may follow that consume nothing. -/
def ExtensionsStage.rank : ExtensionsStage → Nat
  | .bws .name => 3
  | .bws _ => 1
  | .name => 2
  | .tokenValue => 2
  | .reportNameValue => 1
  | _ => 0

def extensionsMeasure (s : ParseChunkExtensionsContext × η) (t : Bytes) : Nat := 4 * t.length + s.1.stage.rank

variable {callback}

theorem extensionsTurn_less {s s' : ParseChunkExtensionsContext × η} {ch : UInt8} {tail rest : Bytes}
    (h : extensionsTurn callback s ch tail = .next s' rest) :
    extensionsMeasure s' rest < extensionsMeasure s (ch :: tail) := by
  obtain ⟨ctx, env⟩ := s
  have hrank : ∀ stage : ExtensionsStage, stage.rank ≤ 3 := by
    intro stage
    cases stage with
    | bws next => cases next <;> decide
    | _ => decide
  -- a character is consumed
  have hless : ∀ (ctx' : ParseChunkExtensionsContext) (env' : η),
      extensionsMeasure (ctx', env') tail < extensionsMeasure (ctx, env) (ch :: tail) := by
    intro ctx' env'
    have := hrank ctx'.stage
    simp only [extensionsMeasure, List.length_cons]
    omega
  cases hstage : ctx.stage with
  | check =>
      simp only [extensionsTurn, hstage] at h
      split at h
      · cases h
        exact hless _ _
      split at h <;> cases h
      exact hless _ _
  | bws next =>
      simp only [extensionsTurn, hstage] at h
      split at h
      · cases h
      rename_i b rest' hows
      cases h
      have hle : (b :: rest').length ≤ (ch :: tail).length := by
        rw [← hows]
        exact (List.dropWhile_sublist _).length_le
      have hnext : next.stage.rank < (ExtensionsStage.bws next).rank := by cases next <;> decide
      simp only [extensionsMeasure, hstage]
      omega
  | colon =>
      simp only [extensionsTurn, hstage] at h
      split at h <;> cases h
      exact hless _ _
  | name =>
      simp only [extensionsTurn, hstage] at h
      split at h
      · cases h
      · cases h
      rename_i name rest' hname
      have hle := (scanToken_rest hname).1.length_le
      split at h
      · cases h
      split at h
      · cases h
      rename_i b rest'' _
      split at h
      · cases h
        have := hrank (ExtensionsStage.bws .valueStart)
        rw [List.length_cons] at hle
        simp only [extensionsMeasure]
        omega
      split at h
      · cases h
        simp only [extensionsMeasure, hstage, ExtensionsStage.rank]
        omega
      split at h <;> cases h
  | eqOrColon =>
      simp only [extensionsTurn, hstage] at h
      split at h
      · cases h
        exact hless _ _
      split at h
      · split at h <;> cases h
        exact hless _ _
      · cases h
  | valueStart =>
      simp only [extensionsTurn, hstage] at h
      split at h
      · cases h
        exact hless _ _
      split at h <;> cases h
      exact hless _ _
  | tokenValue =>
      simp only [extensionsTurn, hstage] at h
      split at h
      · cases h
      · cases h
      rename_i value rest' hvalue
      cases h
      have hle := (scanToken_rest hvalue).1.length_le
      simp only [extensionsMeasure, hstage, ExtensionsStage.rank]
      omega
  | quotedValue =>
      simp only [extensionsTurn, hstage] at h
      split at h
      · cases h
      · cases h
      rename_i value rest' hvalue
      cases h
      have hlt := (scanToken_rest hvalue).2 fun t ch => by split_ifs <;> nofun
      simp only [extensionsMeasure, ExtensionsStage.rank]
      omega
  | reportNameValue =>
      simp only [extensionsTurn, hstage] at h
      split at h <;> cases h
      simp only [extensionsMeasure, hstage, ExtensionsStage.rank]
      omega
  | done =>
      simp only [extensionsTurn, hstage] at h
      cases h
  | error =>
      simp only [extensionsTurn, hstage] at h
      cases h
  | undefined =>
      simp only [extensionsTurn, hstage] at h
      cases h

variable (callback)

def extensionsMachine : Machine (ParseChunkExtensionsContext × η) UInt8 Error where
  turn := extensionsTurn callback
  measure := extensionsMeasure
  less := extensionsTurn_less

def ParseChunkExtensionsContext.lastError (ctx : ParseChunkExtensionsContext) : Option Error :=
  match ctx.stage with
  | .error => some .badChunkExtension
  | .undefined => some .undefined
  | _ => none

def ParseChunkExtensionsContext.failWith (ctx : ParseChunkExtensionsContext) (e : Error) : ParseChunkExtensionsContext :=
  { ctx with stage := if e = .undefined then .undefined else .error }

def parseChunkExtensions (ctx : ParseChunkExtensionsContext) (env : η) (input : Bytes) :
    Outcome (ParseChunkExtensionsContext × η) UInt8 Error :=
  (extensionsMachine callback).parse (·.1.lastError) (fun s e => (s.1.failWith e, s.2)) (ctx, env) input

end

/-! ## The data of a chunk and the line ending behind it -/

structure ParseChunkDataContext where
  size : Nat := 0
  deriving DecidableEq

/-- `parse_chunk_data`: what is there of the data is appended to `out`. -/
def parseChunkData (ctx : ParseChunkDataContext) (out input : Bytes) :
    Outcome (ParseChunkDataContext × Bytes) UInt8 Error :=
  if ctx.size = 0 then ⟨(ctx, out), input, none⟩
  else
    let consumed := input.take ctx.size
    ⟨({ size := ctx.size - consumed.length }, out ++ consumed), input.drop consumed.length, none⟩

structure ParseChunkTrailingCrlfCtx where
  expectedChar : UInt8 := 0x0d
  isDone : Bool := false
  isError : Bool := false
  deriving DecidableEq

def chunkTrailingCrlfTurn (ctx : ParseChunkTrailingCrlfCtx) (ch : UInt8) (tail : Bytes) :
    Turn ParseChunkTrailingCrlfCtx UInt8 Error :=
  if ctx.isDone then .stop ctx (ch :: tail)
  else if ch ≠ ctx.expectedChar then .fail ctx (ch :: tail) .badLineEnding
  else if ctx.expectedChar = 0x0d then .next { ctx with expectedChar := 0x0a } tail
  else .next { ctx with isDone := true } tail

theorem chunkTrailingCrlfTurn_less {ctx ctx' : ParseChunkTrailingCrlfCtx} {ch : UInt8} {tail rest : Bytes}
    (h : chunkTrailingCrlfTurn ctx ch tail = .next ctx' rest) : rest.length < (ch :: tail).length := by
  rw [chunkTrailingCrlfTurn] at h
  split at h
  · cases h
  split at h
  · cases h
  split at h <;> cases h <;> exact Nat.lt_succ_self _

def chunkTrailingCrlfMachine : Machine ParseChunkTrailingCrlfCtx UInt8 Error where
  turn := chunkTrailingCrlfTurn
  measure _ t := t.length
  less := chunkTrailingCrlfTurn_less

def ParseChunkTrailingCrlfCtx.lastError (ctx : ParseChunkTrailingCrlfCtx) : Option Error :=
  if ctx.isError then some .badLineEnding else none

def parseChunkTrailingCrlf (ctx : ParseChunkTrailingCrlfCtx) (input : Bytes) :
    Outcome ParseChunkTrailingCrlfCtx UInt8 Error :=
  chunkTrailingCrlfMachine.parse ParseChunkTrailingCrlfCtx.lastError (fun ctx _ => { ctx with isError := true }) ctx input

end Rad.Http
