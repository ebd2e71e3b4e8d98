import Rad.Http.Lemmas.Resume
import Rad.RingBuffer.ViewTheorems

/-!
# The parsers of lines, in any pieces

`parse_request_line`, `parse_status_line` and `parse_headers` come to the same for a text that is appended to a ring buffer
piece by piece as for the whole text, as long as the ring buffer gives the bytes that are left in it.
-/

namespace Rad.Http

open Lib

/-! ## What a turn keeps -/

/-- The turn brings no lasting error about and leaves the end of the text. -/
structure KeepsText {σ : Type*} (lastError : σ → Option Error) (s : σ) (text : Bytes) (t : Turn σ UInt8 Error) : Prop where
  lastError (h : lastError s = none) : lastError t.state = none
  suffix : t.rest <:+ text

theorem requestLineTurn_keeps (ctx : ParseRequestLineContext) (ch : UInt8) (tail : Bytes) :
    KeepsText ParseRequestLineContext.lastError ctx (ch :: tail) (requestLineMachine.turn ctx ch tail) := by
  have htail : tail <:+ ch :: tail := List.suffix_cons _ _
  have hall : ch :: tail <:+ ch :: tail := List.suffix_refl _
  change KeepsText _ _ _ (requestLineTurn ctx ch tail)
  cases hstage : ctx.stage with
  | method =>
      simp only [requestLineTurn, hstage]
      split
      · exact ⟨id, hall⟩
      · exact ⟨id, hall⟩
      · rename_i hmethod
        exact ⟨fun _ => rfl, (parseHttpMethod_rest hmethod).1⟩
  | sp next =>
      simp only [requestLineTurn, hstage]
      split
      · exact ⟨fun _ => by cases next <;> rfl, htail⟩
      · exact ⟨id, hall⟩
  | targetStart =>
      simp only [requestLineTurn, hstage]
      split
      · exact ⟨id, hall⟩
      · refine ⟨fun _ => ?_, htail⟩
        change ParseRequestLineContext.lastError { stage := if ch = 0x2a then .sp .httpSlash else .target, .. } = none
        split <;> rfl
  | target =>
      simp only [requestLineTurn, hstage]
      split
      · exact ⟨fun _ => rfl, hall⟩
      · exact ⟨fun _ => rfl, List.nil_suffix⟩
      · rename_i htarget
        have hrest := (scanToken_rest htarget).1
        split
        · exact ⟨fun _ => rfl, hrest⟩
        · exact ⟨fun _ => rfl, hrest⟩
  | httpSlash =>
      simp only [requestLineTurn, hstage]
      split
      · exact ⟨id, hall⟩
      · exact ⟨id, hall⟩
      · rename_i hslash
        exact ⟨fun _ => rfl, (parseHttpSlash_rest hslash).1⟩
  | version =>
      simp only [requestLineTurn, hstage]
      split
      · exact ⟨id, hall⟩
      · exact ⟨id, hall⟩
      · rename_i hversion
        exact ⟨fun _ => rfl, (parseHttpVersion_rest hversion).1⟩
  | cr =>
      simp only [requestLineTurn, hstage]
      split
      · exact ⟨fun _ => rfl, htail⟩
      · exact ⟨id, hall⟩
  | lf =>
      simp only [requestLineTurn, hstage]
      split
      · exact ⟨fun _ => rfl, htail⟩
      · exact ⟨id, hall⟩
  | done =>
      simp only [requestLineTurn, hstage]
      exact ⟨id, hall⟩
  | error e =>
      simp only [requestLineTurn, hstage]
      exact ⟨id, hall⟩

theorem statusLineTurn_keeps (ctx : ParseStatusLineContext) (ch : UInt8) (tail : Bytes) :
    KeepsText ParseStatusLineContext.lastError ctx (ch :: tail) (statusLineMachine.turn ctx ch tail) := by
  have htail : tail <:+ ch :: tail := List.suffix_cons _ _
  have hall : ch :: tail <:+ ch :: tail := List.suffix_refl _
  change KeepsText _ _ _ (statusLineTurn ctx ch tail)
  cases hstage : ctx.stage with
  | httpSlash =>
      simp only [statusLineTurn, hstage]
      split
      · exact ⟨id, hall⟩
      · exact ⟨id, hall⟩
      · rename_i hslash
        exact ⟨fun _ => rfl, (parseHttpSlash_rest hslash).1⟩
  | version =>
      simp only [statusLineTurn, hstage]
      split
      · exact ⟨id, hall⟩
      · exact ⟨id, hall⟩
      · rename_i hversion
        exact ⟨fun _ => rfl, (parseHttpVersion_rest hversion).1⟩
  | sp next =>
      simp only [statusLineTurn, hstage]
      split
      · exact ⟨fun _ => by cases next <;> rfl, htail⟩
      · exact ⟨id, hall⟩
  | status =>
      simp only [statusLineTurn, hstage]
      split
      · exact ⟨id, hall⟩
      · exact ⟨id, hall⟩
      · rename_i hstatus
        exact ⟨fun _ => rfl, (parseHttpStatus_rest hstatus).1⟩
  | reasonStartOrCr =>
      simp only [statusLineTurn, hstage]
      split
      · exact ⟨fun _ => rfl, htail⟩
      split
      · exact ⟨fun _ => rfl, htail⟩
      · exact ⟨id, hall⟩
  | reason =>
      simp only [statusLineTurn, hstage]
      split
      · exact ⟨fun _ => rfl, hall⟩
      · exact ⟨fun _ => rfl, List.nil_suffix⟩
      · rename_i hreason
        exact ⟨fun _ => rfl, (scanToken_rest hreason).1⟩
  | lf =>
      simp only [statusLineTurn, hstage]
      split
      · exact ⟨fun _ => rfl, htail⟩
      · exact ⟨id, hall⟩
  | done =>
      simp only [statusLineTurn, hstage]
      exact ⟨id, hall⟩
  | error e =>
      simp only [statusLineTurn, hstage]
      exact ⟨id, hall⟩

theorem checkDuplicate_stage (ctx : ParseHeadersContext) : ctx.checkDuplicate.1.stage = ctx.stage := by
  rw [ParseHeadersContext.checkDuplicate]
  split_ifs <;> rfl

theorem headersTurn_keeps {η : Type*} (onHeader : HeaderCallback η) (s : ParseHeadersContext × η) (ch : UInt8)
    (tail : Bytes) : KeepsText (fun s => s.1.lastError) s (ch :: tail) ((headersMachine onHeader).turn s ch tail) := by
  have htail : tail <:+ ch :: tail := List.suffix_cons _ _
  have hall : ch :: tail <:+ ch :: tail := List.suffix_refl _
  obtain ⟨ctx, env⟩ := s
  change KeepsText _ _ _ (headersTurn onHeader (ctx, env) ch tail)
  cases hstage : ctx.stage with
  | nameAndColon =>
      simp only [headersTurn, hstage]
      split
      · exact ⟨fun _ => rfl, htail⟩
      split
      · exact ⟨fun _ => rfl, hall⟩
      · exact ⟨fun _ => rfl, List.nil_suffix⟩
      rename_i hscan
      have hrest := (scanToken_rest hscan).1
      split
      · exact ⟨fun _ => rfl, hrest⟩
      split
      · refine ⟨fun _ => ?_, hrest⟩
        change ParseHeadersContext.lastError (ParseHeadersContext.checkDuplicate _).1 = none
        rw [ParseHeadersContext.lastError, checkDuplicate_stage]
      · exact ⟨fun _ => rfl, hrest⟩
  | ows next =>
      simp only [headersTurn, hstage]
      split
      · exact ⟨id, List.nil_suffix⟩
      rename_i b rest hows
      have hrest : b :: rest <:+ ch :: tail := by
        rw [← hows]
        exact List.dropWhile_suffix _
      split
      · split
        · exact ⟨id, hrest⟩
        · exact ⟨fun _ => by cases next <;> rfl, hrest⟩
      · exact ⟨fun _ => by cases next <;> rfl, hrest⟩
  | value =>
      simp only [headersTurn, hstage]
      split
      · exact ⟨fun _ => rfl, hall⟩
      · exact ⟨fun _ => rfl, List.nil_suffix⟩
      rename_i hscan
      have hrest := (scanToken_rest hscan).1
      split
      · exact ⟨fun _ => rfl, hrest⟩
      · exact ⟨fun _ => rfl, hrest⟩
  | cr =>
      simp only [headersTurn, hstage]
      split
      · exact ⟨fun _ => rfl, htail⟩
      · exact ⟨id, hall⟩
  | lf =>
      simp only [headersTurn, hstage]
      split
      · exact ⟨fun _ => rfl, htail⟩
      · exact ⟨id, hall⟩
  | terminatingLf =>
      simp only [headersTurn, hstage]
      split
      · exact ⟨fun _ => rfl, htail⟩
      · exact ⟨id, hall⟩
  | done =>
      simp only [headersTurn, hstage]
      exact ⟨id, hall⟩
  | error e =>
      simp only [headersTurn, hstage]
      exact ⟨id, hall⟩

/-! ## Pieces of a text -/

theorem parseRequestLine_incremental : Incremental parseRequestLine :=
  Machine.incremental requestLine_resumes (fun _ => rfl) fun ctx ch tail => (requestLineTurn_keeps ctx ch tail).lastError

theorem parseStatusLine_incremental : Incremental parseStatusLine :=
  Machine.incremental statusLine_resumes (fun _ => rfl) fun ctx ch tail => (statusLineTurn_keeps ctx ch tail).lastError

theorem parseHeaders_incremental {η : Type*} (onHeader : HeaderCallback η) :
    Incremental fun (s : ParseHeadersContext × η) input => parseHeaders onHeader s.1 s.2 input :=
  Machine.incremental (headers_resumes onHeader) (fun _ => rfl) fun s ch tail => (headersTurn_keeps onHeader s ch tail).lastError

/-! ## Calls on a ring buffer -/

/-- What `available_buffers` gives: undefined where a range goes behind the storage. -/
def readBuffers (input : RingConsumerProducer) : Option Bytes :=
  let (buff1, buff2) := input.availableBuffers
  if buff1.ptr + buff1.size ≤ input.capacity ∧ buff2.ptr + buff2.size ≤ input.capacity then
    some (buff1.bytes input.storage ++ buff2.bytes input.storage)
  else none

/-- A parser of lines. A context that is done or has failed reads nothing. -/
structure LineParser (σ : Type*) where
  ended : σ → Bool
  parse : σ → Bytes → Outcome σ UInt8 Error

def requestLineParser : LineParser ParseRequestLineContext where
  ended ctx := ctx.stage == .done || ctx.lastError.isSome
  parse := parseRequestLine

def statusLineParser : LineParser ParseStatusLineContext where
  ended ctx := ctx.stage == .done || ctx.lastError.isSome
  parse := parseStatusLine

def headersParser {η : Type*} (onHeader : HeaderCallback η) : LineParser (ParseHeadersContext × η) where
  ended s := s.1.stage == .done || s.1.lastError.isSome
  parse s input := parseHeaders onHeader s.1 s.2 input

/-- A context, the error of the last call and the ring buffer behind it. -/
structure RingState (σ : Type*) where
  state : σ
  error : Option Error
  input : RingConsumerProducer

namespace LineParser

variable {σ : Type*} (p : LineParser σ)

/-- The ring buffer over a storage, before the first call. -/
def start (s : σ) (storage : Bytes) : RingState σ := ⟨s, none, .ofBuffer storage 0⟩

/-- A call. What it consumes, it consumes at the begin of what is there. -/
def call (x : RingState σ) : Option (RingState σ) :=
  if p.ended x.state then some { x with error := (p.parse x.state []).error }
  else
    (readBuffers x.input).map fun text =>
      let o := p.parse x.state text
      ⟨o.state, o.error, x.input.consume (text.length - o.rest.length)⟩

/-- `put_data` and the call behind it. -/
def append (x : RingState σ) (piece : Bytes) : Option (RingState σ) :=
  p.call { x with input := (x.input.readFrom piece).2 }

def appendAll (x : RingState σ) (pieces : List Bytes) : Option (RingState σ) := pieces.foldlM p.append x

/-- Each of the pieces finds room, in a state in which it is `allowed`. -/
def Fits (allowed : RingState σ → Bytes → Prop) : RingState σ → List Bytes → Prop
  | _, [] => True
  | x, piece :: pieces =>
    piece.length ≤ x.input.space ∧ allowed x piece ∧ ∀ y ∈ p.append x piece, Fits allowed y pieces

instance (allowed : RingState σ → Bytes → Prop) [∀ x piece, Decidable (allowed x piece)] :
    (x : RingState σ) → (pieces : List Bytes) → Decidable (p.Fits allowed x pieces)
  | _, [] => .isTrue trivial
  | x, piece :: pieces =>
    have (y : RingState σ) : Decidable (p.Fits allowed y pieces) := instDecidableFits allowed y pieces
    inferInstanceAs (Decidable (_ ∧ _ ∧ ∀ y ∈ p.append x piece, p.Fits allowed y pieces))

/-- The piece does not fill the ring buffer, the bytes in it begin at the begin of the storage, or nothing is read. -/
def LeavesRoom (x : RingState σ) (piece : Bytes) : Prop :=
  piece.length < x.input.space ∨ x.input.startPtr = 0 ∨ p.ended x.state = true

instance (x : RingState σ) (piece : Bytes) : Decidable (p.LeavesRoom x piece) :=
  inferInstanceAs (Decidable (_ ∨ _ ∨ _))

/-- The calls behind the pieces come to what the call on the whole text comes to: the same context and error and, without
an error, the same bytes left. -/
def AsWhole (s : σ) (storage : Bytes) (pieces : List Bytes) : Prop :=
  ∃ x, p.appendAll (start s storage) pieces = some x ∧
    Outcome.Agrees ⟨x.state, x.input.liveBytes, x.error⟩ (p.parse s pieces.flatten)

/-- A parser of which a call leaves the end of the text, all of it behind the end of the line. -/
structure Lawful (p : LineParser σ) : Prop where
  incremental : Incremental p.parse
  suffix (s : σ) (t : Bytes) : (p.parse s t).rest <:+ t
  ended {s : σ} (h : p.ended s = true) (t : Bytes) : p.parse s t = ⟨s, t, (p.parse s []).error⟩

end LineParser

/-! ## What a call reads -/

section

open RingConsumerProducer LineParser

variable {σ : Type*} {p : LineParser σ} {x : RingState σ} {l : Bytes}

theorem readBuffers_eq {r : RingConsumerProducer} (h : Exposes r l) : readBuffers r = some l := by
  rw [readBuffers, ← h.bytes]
  exact if_pos ⟨h.inside_one, h.inside_two⟩

theorem LineParser.Lawful.call_eq (hp : p.Lawful) (h : Represents x.input l)
    (hroom : x.input.usedSize = x.input.capacity → x.input.startPtr = 0 ∨ p.ended x.state = true) :
    ∃ y, p.call x = some y ∧ Represents y.input (p.parse x.state l).rest ∧
      y.state = (p.parse x.state l).state ∧ y.error = (p.parse x.state l).error := by
  rw [call]
  by_cases hended : p.ended x.state = true
  · rw [if_pos hended, hp.ended hended l]
    exact ⟨_, rfl, h, rfl, rfl⟩
  · have hread := readBuffers_eq (h.exposes_iff.2 fun hfull => (hroom hfull).resolve_right hended)
    rw [if_neg hended, hread]
    refine ⟨_, rfl, ?_, rfl, rfl⟩
    obtain ⟨front, hfront⟩ := hp.suffix x.state l
    have hlen : l.length - (p.parse x.state l).rest.length = front.length := by
      rw [← congrArg List.length hfront, List.length_append, Nat.add_sub_cancel]
    have hsize : front.length ≤ x.input.size := by
      rw [size, ← h.length_eq, ← hfront, List.length_append]
      exact Nat.le_add_right _ _
    have hdrop : l.drop front.length = (p.parse x.state l).rest := by
      rw [← congrArg (List.drop front.length) hfront, List.drop_left]
    have hconsume := h.consume hsize
    rw [hdrop] at hconsume
    dsimp only
    rwa [hlen]

/-- A piece that leaves room is parsed behind the bytes that are left. -/
theorem LineParser.Lawful.append_eq (hp : p.Lawful) (h : Represents x.input l) {piece : Bytes}
    (hfits : piece.length ≤ x.input.space) (hroom : p.LeavesRoom x piece) :
    ∃ y, p.append x piece = some y ∧ Represents y.input (p.parse x.state (l ++ piece)).rest ∧
      y.state = (p.parse x.state (l ++ piece)).state ∧ y.error = (p.parse x.state (l ++ piece)).error := by
  obtain ⟨hread, hcapacity, hstart⟩ := Represents.readFrom h hfits
  refine LineParser.Lawful.call_eq hp hread fun hfull => ?_
  have hfull : (x.input.readFrom piece).2.usedSize = (x.input.readFrom piece).2.capacity := hfull
  rw [hcapacity, ← hread.length_eq, List.length_append, h.length_eq] at hfull
  rcases hroom with hless | hzero | hended
  · unfold space size at hless
    omega
  · exact .inl (hstart.trans hzero)
  · exact .inr hended

theorem LineParser.Lawful.appendAll_eq (hp : p.Lawful) {pieces : List Bytes} (h : Represents x.input l)
    (hfits : p.Fits p.LeavesRoom x pieces) :
    ∃ y, p.appendAll x pieces = some y ∧
      (⟨y.state, y.input.liveBytes, y.error⟩ : Outcome σ UInt8 Error) = feed p.parse ⟨x.state, l, x.error⟩ pieces := by
  induction pieces generalizing x l with
  | nil => exact ⟨x, rfl, by rw [h.liveBytes_eq]; rfl⟩
  | cons piece pieces ih =>
      obtain ⟨hroom, hleaves, hrest⟩ := hfits
      obtain ⟨y, hy, hrep, hstate, herror⟩ := hp.append_eq h hroom hleaves
      obtain ⟨z, hz, hfeed⟩ := ih hrep (hrest y hy)
      refine ⟨z, ?_, ?_⟩
      · rw [appendAll, List.foldlM_cons, hy]
        exact hz
      · rw [hfeed, hstate, herror]
        rfl

theorem LineParser.Lawful.asWhole (hp : p.Lawful) {s : σ} (hnil : p.parse s [] = ⟨s, [], none⟩) {storage : Bytes}
    {pieces : List Bytes} (hfits : p.Fits p.LeavesRoom (start s storage) pieces) : p.AsWhole s storage pieces := by
  have hstart : Represents (start s storage).input [] := Represents.ofBuffer storage (Nat.zero_le _)
  obtain ⟨y, hy, hfeed⟩ := hp.appendAll_eq hstart hfits
  refine ⟨y, hy, ?_⟩
  rw [hfeed]
  exact hp.incremental.feed_agrees hnil pieces

end

/-! ## The parsers of lines -/

/-- A parser that takes turns, of which those behind the end leave the loop. -/
theorem LineParser.lawful_of_machine {σ : Type*} {m : Machine σ UInt8 Error} {lastError : σ → Option Error}
    {failWith : σ → Error → σ} {ended : σ → Bool} (hincremental : Incremental (m.parse lastError failWith))
    (hsuffix : ∀ s ch tail, (m.turn s ch tail).rest <:+ ch :: tail)
    (hended : ∀ s, ended s = true → ∀ ch tail, m.turn s ch tail = .stop s (ch :: tail)) :
    LineParser.Lawful ⟨ended, m.parse lastError failWith⟩ where
  incremental := hincremental
  suffix _ _ := Machine.parse_suffix hsuffix
  ended {s} h t := by
    change m.parse lastError failWith s t = ⟨s, t, (m.parse lastError failWith s []).error⟩
    rw [Machine.parse_stop (hended s h), Machine.parse_stop (hended s h)]

theorem requestLineParser_lawful : requestLineParser.Lawful :=
  LineParser.lawful_of_machine parseRequestLine_incremental
    (fun ctx ch tail => (requestLineTurn_keeps ctx ch tail).suffix) fun ctx h ch tail => by
    change requestLineTurn ctx ch tail = _
    cases hstage : ctx.stage <;> simp_all [ParseRequestLineContext.lastError, requestLineTurn]

theorem statusLineParser_lawful : statusLineParser.Lawful :=
  LineParser.lawful_of_machine parseStatusLine_incremental
    (fun ctx ch tail => (statusLineTurn_keeps ctx ch tail).suffix) fun ctx h ch tail => by
    change statusLineTurn ctx ch tail = _
    cases hstage : ctx.stage <;> simp_all [ParseStatusLineContext.lastError, statusLineTurn]

theorem headersParser_lawful {η : Type*} (onHeader : HeaderCallback η) : (headersParser onHeader).Lawful :=
  LineParser.lawful_of_machine (parseHeaders_incremental onHeader)
    (fun s ch tail => (headersTurn_keeps onHeader s ch tail).suffix) fun s h ch tail => by
    obtain ⟨ctx, env⟩ := s
    change headersTurn onHeader (ctx, env) ch tail = _
    cases hstage : ctx.stage <;> simp_all [ParseHeadersContext.lastError, headersTurn]

/-- The calls of `on_header`, in order. -/
def logHeader (calls : Headers) (name value : Bytes) : Headers := calls ++ [(name, value)]

open LineParser in
/-- A text that is appended to a ring buffer piece by piece is parsed as the whole text where each piece leaves room: the
contexts come out the same in all that they say (stage, error, method, target, version, status and reason), and so do the
calls of `on_header` and, without an error, the bytes that are left in the buffer. -/
theorem lines_in_any_pieces (storage : Bytes) (pieces : List Bytes) :
    (requestLineParser.Fits requestLineParser.LeavesRoom (start {} storage) pieces →
      requestLineParser.AsWhole {} storage pieces) ∧
    (statusLineParser.Fits statusLineParser.LeavesRoom (start {} storage) pieces →
      statusLineParser.AsWhole {} storage pieces) ∧
    ((headersParser (some logHeader)).Fits (headersParser (some logHeader)).LeavesRoom (start ({}, []) storage) pieces →
      (headersParser (some logHeader)).AsWhole ({}, []) storage pieces) := by
  refine ⟨requestLineParser_lawful.asWhole ?_, statusLineParser_lawful.asWhole ?_,
    (headersParser_lawful (some logHeader)).asWhole ?_⟩
  · simp [requestLineParser, parseRequestLine, Machine.parse, ParseRequestLineContext.lastError]
  · simp [statusLineParser, parseStatusLine, Machine.parse, ParseStatusLineContext.lastError]
  · simp [headersParser, parseHeaders, Machine.parse, ParseHeadersContext.lastError]

open LineParser in
/-- In a ring buffer of eight bytes a status line wraps around. -/
theorem lines_in_any_pieces_wrapped :
    statusLineParser.AsWhole {} (List.replicate 8 0) [ascii "HTTP/1.", ascii "1 200"] :=
  (lines_in_any_pieces (List.replicate 8 0) [ascii "HTTP/1.", ascii "1 200"]).2.1 (by decide +kernel)

open LineParser in
/-- A status line in a ring buffer of seven bytes: what is left of the first piece wraps around and leaves no room. -/
theorem full_ring_reads_outside :
    ¬ (∀ (storage : Bytes) (pieces : List Bytes), statusLineParser.Fits (fun _ _ => True) (start {} storage) pieces →
      statusLineParser.AsWhole {} storage pieces) := by
  intro h
  have hfits : statusLineParser.Fits (fun _ _ => True) (start {} (List.replicate 7 0)) [ascii "HTTP/1.", ascii "1 200"] := by
    decide +kernel
  obtain ⟨x, hx, -⟩ := h _ _ hfits
  have hnone : statusLineParser.appendAll (start {} (List.replicate 7 0)) [ascii "HTTP/1.", ascii "1 200"] = none := by
    decide +kernel
  rw [hnone] at hx
  cases hx

end Rad.Http
