import Rad.Http.Lemmas.Chunks

/-!
# The parser of chunked bodies (src/net/http/http_parser.cpp)

`chunks_incremental_parser`: each turn of its loop calls the parser of one part of a chunk.
-/

namespace Rad.Http

open Lib

/-- `stage_`. -/
inductive ChunksStage where
  | size (ctx : ParseChunkSizeContext)
  | extensions (ctx : ParseChunkExtensionsContext)
  | crlfAfterSize (ctx : ParseChunkTrailingCrlfCtx)
  | data (ctx : ParseChunkDataContext)
  | trailingCrlf (ctx : ParseChunkTrailingCrlfCtx)
  | headers (ctx : ParseHeadersContext)
  | done
  | error (lastEc : Error)
  deriving DecidableEq

/-- The parser with the output buffer and the environment of the callbacks. -/
structure ChunksState (η : Type*) where
  chunkSize : Nat := 0
  stage : ChunksStage := .size {}
  out : Bytes
  env : η

section

variable {η : Type*} (extensionsCb : ChunkExtensionCallback η) (trailersCb : HeaderCallback η)

/-- One turn of the loop of `parse`, on the characters `ch :: tail`. Its callbacks are variables that are passed on; a view of
`trailersCb` is called as `trailersCb` is. -/
def chunksTurn (s : ChunksState η) (ch : UInt8) (tail : Bytes) : Turn (ChunksState η) UInt8 Error :=
  match s.stage with
  | .size ctx =>
    (parseChunkSize ctx (ch :: tail)).turn fun ctx =>
      if ctx.stage = .done then { s with chunkSize := ctx.chunkSize, stage := .extensions {} }
      else { s with stage := .size ctx }
  | .extensions ctx =>
    (parseChunkExtensions extensionsCb.ofVariable ctx s.env (ch :: tail)).turn fun r =>
      if r.1.stage = .done then { s with stage := .crlfAfterSize {}, env := r.2 }
      else { s with stage := .extensions r.1, env := r.2 }
  | .crlfAfterSize ctx =>
    (parseChunkTrailingCrlf ctx (ch :: tail)).turn fun ctx =>
      if ctx.isDone then { s with stage := .data { size := s.chunkSize } } else { s with stage := .crlfAfterSize ctx }
  | .data ctx =>
    (parseChunkData ctx s.out (ch :: tail)).turn fun r =>
      if r.1.size = 0 then
        -- behind the last chunk there are trailers, or just the CRLF that ends them
        { s with stage := if s.chunkSize = 0 then .headers {} else .trailingCrlf {}, out := r.2 }
      else { s with stage := .data r.1, out := r.2 }
  | .trailingCrlf ctx =>
    (parseChunkTrailingCrlf ctx (ch :: tail)).turn fun ctx =>
      if ctx.isDone then { s with stage := .size {} } else { s with stage := .trailingCrlf ctx }
  | .headers ctx =>
    (parseHeaders trailersCb ctx s.env (ch :: tail)).turn fun r =>
      if r.1.stage = .done then { s with stage := .done, env := r.2 } else { s with stage := .headers r.1, env := r.2 }
  | .done => .stop s (ch :: tail)
  | .error _ => .stop s (ch :: tail)

/-- How many turns may follow that consume nothing. -/
def ChunksStage.rank : ChunksStage → Nat
  | .size _ => 5
  | .extensions _ => 4
  | .crlfAfterSize _ => 3
  | .data _ => 2
  | .headers _ => 1
  | .trailingCrlf ctx => if ctx.isDone then 6 else 0
  | _ => 0

def chunksMeasure (s : ChunksState η) (t : Bytes) : Nat := 7 * t.length + s.stage.rank

theorem ChunksStage.rank_le (stage : ChunksStage) : stage.rank ≤ 6 := by
  cases stage with
  | trailingCrlf ctx =>
      rw [ChunksStage.rank]
      split <;> decide
  | _ =>
      simp only [ChunksStage.rank]
      decide

variable {extensionsCb trailersCb}

/-- A call that consumes something, or passes on to a part of a lower rank. -/
theorem chunksMeasure_less {τ : Type*} {o : Outcome τ UInt8 Error} {f : τ → ChunksState η} {s s' : ChunksState η}
    {ch : UInt8} {tail rest : Bytes} (h : o.turn f = .next s' rest) (hlen : o.rest.length ≤ (ch :: tail).length)
    (hless : o.error = none → o.rest = [] ∨ o.rest.length < (ch :: tail).length ∨ (f o.state).stage.rank < s.stage.rank) :
    chunksMeasure s' rest < chunksMeasure s (ch :: tail) := by
  rw [Outcome.turn] at h
  split at h
  · rename_i herror
    cases h
    have hrank := (f o.state).stage.rank_le
    simp only [chunksMeasure]
    rcases hless herror with hrest | hrest | hrest
    · rw [hrest]
      simp only [List.length_nil, List.length_cons]
      omega
    · omega
    · omega
  · cases h

/-- A line ending that is not done takes a character. -/
theorem parseChunkTrailingCrlf_length {ctx : ParseChunkTrailingCrlfCtx} (hdone : ctx.isDone = false) {ch : UInt8}
    {tail : Bytes} (herror : (parseChunkTrailingCrlf ctx (ch :: tail)).error = none) :
    (parseChunkTrailingCrlf ctx (ch :: tail)).rest.length < (ch :: tail).length := by
  have hlast : ctx.lastError = none := by
    cases hlast : ctx.lastError with
    | none => rfl
    | some e =>
        change (chunkTrailingCrlfMachine.parse ParseChunkTrailingCrlfCtx.lastError _ _ _).error = none at herror
        rw [Machine.parse, hlast] at herror
        cases herror
  change (chunkTrailingCrlfMachine.parse ParseChunkTrailingCrlfCtx.lastError _ _ _).error = none at herror
  change (chunkTrailingCrlfMachine.parse ParseChunkTrailingCrlfCtx.lastError _ _ _).rest.length < _
  rw [Machine.parse, hlast] at herror ⊢
  cases hturn : chunkTrailingCrlfMachine.turn ctx ch tail with
  | next ctx' rest =>
      have hless := chunkTrailingCrlfTurn_less hturn
      have hlen : (chunkTrailingCrlfMachine.run ctx' rest).rest.length ≤ rest.length :=
        (Machine.run_suffix chunkTrailingCrlf_suffix).length_le
      rw [Machine.run_next hturn]
      have hlt := Nat.lt_of_le_of_lt hlen hless
      cases herror' : (chunkTrailingCrlfMachine.run ctx' rest).error <;> simpa only [herror'] using hlt
  | stop ctx' rest =>
      change chunkTrailingCrlfTurn ctx ch tail = _ at hturn
      rw [chunkTrailingCrlfTurn, hdone] at hturn
      simp only [Bool.false_eq_true, if_false] at hturn
      split at hturn
      · cases hturn
      split at hturn <;> cases hturn
  | fail ctx' rest e =>
      rw [Machine.run_fail hturn] at herror
      cases herror

theorem chunksTurn_less {s s' : ChunksState η} {ch : UInt8} {tail rest : Bytes}
    (h : chunksTurn extensionsCb trailersCb s ch tail = .next s' rest) :
    chunksMeasure s' rest < chunksMeasure s (ch :: tail) := by
  cases hstage : s.stage with
  | size ctx =>
      simp only [chunksTurn, hstage] at h
      refine chunksMeasure_less h (Machine.parse_suffix chunkSize_suffix).length_le fun herror => ?_
      refine (parseChunkSize_parses.all herror).imp_right fun hdone => .inr ?_
      rw [if_pos hdone, hstage]
      exact Nat.lt_succ_self 4
  | extensions ctx =>
      simp only [chunksTurn, hstage] at h
      refine chunksMeasure_less h (Machine.parse_suffix (extensions_suffix extensionsCb.ofVariable)).length_le fun herror => ?_
      have hall := (parseChunkExtensions_parses extensionsCb.ofVariable).all (s := (ctx, s.env)) herror
      refine hall.imp_right fun hdone => .inr ?_
      rw [if_pos hdone, hstage]
      exact Nat.lt_succ_self 3
  | crlfAfterSize ctx =>
      simp only [chunksTurn, hstage] at h
      refine chunksMeasure_less h (Machine.parse_suffix chunkTrailingCrlf_suffix).length_le fun herror => ?_
      refine (parseChunkTrailingCrlf_parses.all herror).imp_right fun hdone => .inr ?_
      rw [if_pos hdone.1, hstage]
      exact Nat.lt_succ_self 2
  | data ctx =>
      simp only [chunksTurn, hstage] at h
      refine chunksMeasure_less h (parseChunkData_length _ _ _) fun herror => ?_
      have hall := parseChunkData_parses.all (s := (ctx, s.out)) herror
      refine hall.imp_right fun hdone => .inr ?_
      rw [if_pos hdone, hstage]
      by_cases hsize : s.chunkSize = 0
      · simp only [if_pos hsize]
        exact Nat.lt_succ_self 1
      · simp only [if_neg hsize]
        exact Nat.zero_lt_succ 1
  | trailingCrlf ctx =>
      simp only [chunksTurn, hstage] at h
      refine chunksMeasure_less h (Machine.parse_suffix chunkTrailingCrlf_suffix).length_le fun herror => .inr ?_
      cases hdone : ctx.isDone with
      | false => exact .inl (parseChunkTrailingCrlf_length hdone herror)
      | true =>
          right
          cases hlast : ctx.isError with
          | true =>
              change (chunkTrailingCrlfMachine.parse ParseChunkTrailingCrlfCtx.lastError _ _ _).error = none at herror
              simp [Machine.parse, ParseChunkTrailingCrlfCtx.lastError, hlast] at herror
          | false =>
              rw [parseChunkTrailingCrlf_parses.done ⟨hdone, hlast⟩, hstage]
              simp only [hdone, if_true, ChunksStage.rank]
              decide
  | headers ctx =>
      simp only [chunksTurn, hstage] at h
      have hsuffix := fun s ch tail => (headersTurn_keeps trailersCb s ch tail).suffix
      refine chunksMeasure_less h (Machine.parse_suffix hsuffix).length_le fun herror => ?_
      have hall := (parseHeaders_parses trailersCb).all (s := (ctx, s.env)) herror
      refine hall.imp_right fun hdone => .inr ?_
      rw [if_pos hdone, hstage]
      exact Nat.zero_lt_one
  | done =>
      simp only [chunksTurn, hstage] at h
      cases h
  | error e =>
      simp only [chunksTurn, hstage] at h
      cases h

variable (extensionsCb trailersCb)

def chunksMachine : Machine (ChunksState η) UInt8 Error where
  turn := chunksTurn extensionsCb trailersCb
  measure := chunksMeasure
  less := chunksTurn_less

def ChunksState.lastError (s : ChunksState η) : Option Error :=
  match s.stage with
  | .error e => some e
  | _ => none

/-- `chunks_incremental_parser::parse`. -/
def parseChunks (s : ChunksState η) (input : Bytes) : Outcome (ChunksState η) UInt8 Error :=
  (chunksMachine extensionsCb trailersCb).parse ChunksState.lastError (fun s e => { s with stage := .error e }) s input

end

/-! ## Chunked bodies in any pieces

The parser of chunked bodies comes to the same for a body that is appended piece by piece.
-/

theorem trailingCrlf_notDone {ctx : ParseChunkTrailingCrlfCtx} {t : Bytes} (herror : (parseChunkTrailingCrlf ctx t).error = none)
    (hdone : ¬((parseChunkTrailingCrlf ctx t).state.isDone = true ∧ (parseChunkTrailingCrlf ctx t).state.isError = false)) :
    (parseChunkTrailingCrlf ctx t).state.isDone = false := by
  have hlast : (parseChunkTrailingCrlf ctx t).state.lastError = none :=
    Machine.parse_lastError chunkTrailingCrlf_lastError herror
  rw [ParseChunkTrailingCrlfCtx.lastError] at hlast
  cases hflag : (parseChunkTrailingCrlf ctx t).state.isDone with
  | false => rfl
  | true =>
      refine absurd ⟨hflag, ?_⟩ hdone
      cases herr : (parseChunkTrailingCrlf ctx t).state.isError with
      | false => rfl
      | true =>
          rw [herr] at hlast
          cases hlast

section

variable {η : Type*} (extensionsCb : ChunkExtensionCallback η) (trailersCb : HeaderCallback η)

theorem chunks_resumes (s : ChunksState η) (ch : UInt8) (tail : Bytes) :
    (chunksMachine extensionsCb trailersCb).Resumes s ch tail := by
  have hturn : (chunksMachine extensionsCb trailersCb).turn = chunksTurn extensionsCb trailersCb := rfl
  cases hstage : s.stage with
  | size ctx =>
      refine parseChunkSize_parses.resumes (x := ctx)
        (f := fun ctx => if ctx.stage = .done then { s with chunkSize := ctx.chunkSize, stage := .extensions {} }
          else { s with stage := .size ctx }) (fun t => ?_) tail fun _ hdone b u => ?_
      · simp only [hturn, chunksTurn, hstage]
      · simp only [hturn, if_neg hdone, chunksTurn]
  | extensions ctx =>
      refine (parseChunkExtensions_parses extensionsCb.ofVariable).resumes (x := (ctx, s.env))
        (f := fun r => if r.1.stage = .done then { s with stage := .crlfAfterSize {}, env := r.2 }
          else { s with stage := .extensions r.1, env := r.2 }) (fun t => ?_) tail fun _ hdone b u => ?_
      · simp only [hturn, chunksTurn, hstage]
      · simp only [hturn, if_neg hdone, chunksTurn]
  | crlfAfterSize ctx =>
      refine parseChunkTrailingCrlf_parses.resumes (x := ctx)
        (f := fun ctx => if ctx.isDone then { s with stage := .data { size := s.chunkSize } }
          else { s with stage := .crlfAfterSize ctx }) (fun t => ?_) tail fun herror hdone b u => ?_
      · simp only [hturn, chunksTurn, hstage]
      · have hnot := trailingCrlf_notDone herror hdone
        simp only [hturn, hnot, chunksTurn, Bool.false_eq_true, if_false]
  | data ctx =>
      refine parseChunkData_parses.resumes (x := (ctx, s.out))
        (f := fun r => if r.1.size = 0 then
            { s with stage := if s.chunkSize = 0 then .headers {} else .trailingCrlf {}, out := r.2 }
          else { s with stage := .data r.1, out := r.2 }) (fun t => ?_) tail fun _ hdone b u => ?_
      · simp only [hturn, chunksTurn, hstage]
      · simp only [hturn, if_neg hdone, chunksTurn]
  | trailingCrlf ctx =>
      refine parseChunkTrailingCrlf_parses.resumes (x := ctx)
        (f := fun ctx => if ctx.isDone then { s with stage := .size {} } else { s with stage := .trailingCrlf ctx })
        (fun t => ?_) tail fun herror hdone b u => ?_
      · simp only [hturn, chunksTurn, hstage]
      · have hnot := trailingCrlf_notDone herror hdone
        simp only [hturn, hnot, chunksTurn, Bool.false_eq_true, if_false]
  | headers ctx =>
      refine (parseHeaders_parses trailersCb).resumes (x := (ctx, s.env))
        (f := fun r => if r.1.stage = .done then { s with stage := .done, env := r.2 }
          else { s with stage := .headers r.1, env := r.2 }) (fun t => ?_) tail fun _ hdone b u => ?_
      · simp only [hturn, chunksTurn, hstage]
      · simp only [hturn, if_neg hdone, chunksTurn]
  | done => exact resumes_idle (fun t => by simp only [hturn, chunksTurn, hstage]) tail
  | error e => exact resumes_idle (fun t => by simp only [hturn, chunksTurn, hstage]) tail

theorem turn_state {τ σ : Type*} (o : Outcome τ UInt8 Error) (f : τ → σ) : (o.turn f).state = f o.state := by
  rw [Outcome.turn]
  cases o.error <;> rfl

theorem chunks_lastError (s : ChunksState η) (ch : UInt8) (tail : Bytes) (h : s.lastError = none) :
    ((chunksMachine extensionsCb trailersCb).turn s ch tail).state.lastError = none := by
  change (chunksTurn extensionsCb trailersCb s ch tail).state.lastError = none
  cases hstage : s.stage with
  | size ctx =>
      simp only [chunksTurn, hstage, turn_state]
      split <;> rfl
  | extensions ctx =>
      simp only [chunksTurn, hstage, turn_state]
      split <;> rfl
  | crlfAfterSize ctx =>
      simp only [chunksTurn, hstage, turn_state]
      split <;> rfl
  | data ctx =>
      simp only [chunksTurn, hstage, turn_state]
      split
      · by_cases hsize : s.chunkSize = 0
        · simp only [if_pos hsize, ChunksState.lastError]
        · simp only [if_neg hsize, ChunksState.lastError]
      · rfl
  | trailingCrlf ctx =>
      simp only [chunksTurn, hstage, turn_state]
      split <;> rfl
  | headers ctx =>
      simp only [chunksTurn, hstage, turn_state]
      split <;> rfl
  | done =>
      simp only [chunksTurn, hstage]
      exact h
  | error e =>
      simp only [chunksTurn, hstage]
      exact h

theorem parseChunks_incremental : Incremental (parseChunks extensionsCb trailersCb) := by
  change Incremental ((chunksMachine extensionsCb trailersCb).parse ChunksState.lastError fun s e => { s with stage := .error e })
  exact Machine.incremental (chunks_resumes extensionsCb trailersCb) (fun _ => rfl) (chunks_lastError extensionsCb trailersCb)

/-- A body in pieces is the whole body. -/
theorem parseChunks_feed (out : Bytes) (env : η) (pieces : List Bytes) :
    (feed (parseChunks extensionsCb trailersCb) ⟨{ out, env }, [], none⟩ pieces).Agrees
      (parseChunks extensionsCb trailersCb { out, env } pieces.flatten) := by
  refine (parseChunks_incremental extensionsCb trailersCb).feed_agrees ?_ pieces
  change (chunksMachine extensionsCb trailersCb).parse _ _ _ _ = _
  simp [Machine.parse, ChunksState.lastError]

end

end Rad.Http
