import Rad.Http.Chunks
import Rad.Http.ParserTheorems

/-!
# The parsers of the parts of a chunk

Each of them comes to the same for a text in pieces, and leaves text only when it is done.
-/

namespace Rad.Http

open Lib

/-! ## The size of a chunk -/

theorem chunkSize_resumes (ctx : ParseChunkSizeContext) (ch : UInt8) (tail : Bytes) :
    chunkSizeMachine.Resumes ctx ch tail := by
  have hturn : chunkSizeMachine.turn = chunkSizeTurn := rfl
  cases hstage : ctx.stage with
  | size =>
      by_cases hdigit : isHttpHexDigit ch = true
      · refine resumes_char ?_ tail
        simp only [hturn, chunkSizeTurn, hstage, if_pos hdigit]
        by_cases hlen : hexBuffSize ≤ ctx.hexBuff.length
        · exact .inr ⟨_, _, fun t => if_pos hlen⟩
        · exact .inl ⟨_, fun t => if_neg hlen⟩
      · by_cases hnil : ctx.hexBuff = []
        · refine resumes_char (.inr ⟨ctx, .badChunk, fun t => ?_⟩) tail
          simp only [hturn, chunkSizeTurn, hstage, if_neg hdigit, if_pos hnil]
        by_cases hvalue : (toSizeHex ctx.hexBuff).2 = false
        · refine resumes_char (.inr ⟨{ ctx with chunkSize := (toSizeHex ctx.hexBuff).1 }, .badChunk, fun t => ?_⟩) tail
          simp only [hturn, chunkSizeTurn, hstage, if_neg hdigit, if_neg hnil, if_pos hvalue]
        · have h : ∀ t, chunkSizeTurn ctx ch t =
              .stop { ctx with chunkSize := (toSizeHex ctx.hexBuff).1, stage := .done } (ch :: t) := fun t => by
            simp only [chunkSizeTurn, hstage, if_neg hdigit, if_neg hnil, if_neg hvalue]
          exact .final (h tail) (fun u => h (tail ++ u)) fun b u => rfl
  | done => exact resumes_idle (fun t => by simp only [hturn, chunkSizeTurn, hstage]) tail
  | error => exact resumes_idle (fun t => by simp only [hturn, chunkSizeTurn, hstage]) tail

theorem chunkSize_waits :
    chunkSizeMachine.Waits (fun ctx => ctx.stage = .done ∨ ctx.lastError ≠ none) fun _ _ => False where
  nil _ := id
  turn ctx ch tail := by
    change False ↔ (chunkSizeTurn ctx ch tail).Waits _ _
    refine iff_of_false id ?_
    cases hstage : ctx.stage with
    | size =>
        simp only [chunkSizeTurn, hstage]
        split
        · split <;> exact id
        split
        · exact id
        split
        · exact id
        · exact fun h => h.2 (.inl rfl)
    | done =>
        simp only [chunkSizeTurn, hstage]
        exact fun h => h.2 (.inl hstage)
    | error =>
        simp only [chunkSizeTurn, hstage]
        exact fun h => h.2 (.inr (by simp [ParseChunkSizeContext.lastError, hstage]))

theorem chunkSize_lastError (ctx : ParseChunkSizeContext) (ch : UInt8) (tail : Bytes) (h : ctx.lastError = none) :
    (chunkSizeMachine.turn ctx ch tail).state.lastError = none := by
  change (chunkSizeTurn ctx ch tail).state.lastError = none
  cases hstage : ctx.stage with
  | size =>
      simp only [chunkSizeTurn, hstage]
      split
      · split
        · exact h
        · rfl
      split
      · exact h
      split <;> rfl
  | done =>
      simp only [chunkSizeTurn, hstage]
      exact h
  | error =>
      rw [ParseChunkSizeContext.lastError, if_pos hstage] at h
      cases h

theorem chunkSize_fail {ctx ctx' : ParseChunkSizeContext} {ch : UInt8} {tail rest : Bytes} {e : Error}
    (h : chunkSizeMachine.turn ctx ch tail = .fail ctx' rest e) : e = .badChunk := by
  change chunkSizeTurn ctx ch tail = _ at h
  rw [chunkSizeTurn] at h
  split at h
  · split at h
    · split at h
      · cases h
        rfl
      · cases h
    split at h
    · cases h
      rfl
    split at h
    · cases h
      rfl
    · cases h
  · cases h
  · cases h

theorem chunkSize_suffix (ctx : ParseChunkSizeContext) (ch : UInt8) (tail : Bytes) :
    (chunkSizeMachine.turn ctx ch tail).rest <:+ ch :: tail := by
  change (chunkSizeTurn ctx ch tail).rest <:+ _
  rw [chunkSizeTurn]
  split
  · split
    · split
      · exact List.suffix_refl _
      · exact List.suffix_cons _ _
    split
    · exact List.suffix_refl _
    split <;> exact List.suffix_refl _
  · exact List.suffix_refl _
  · exact List.suffix_refl _

theorem parseChunkSize_parses : Parses parseChunkSize fun ctx => ctx.stage = .done := by
  change Parses (chunkSizeMachine.parse ParseChunkSizeContext.lastError fun ctx _ => { ctx with stage := .error }) _
  refine Machine.parses chunkSize_resumes chunkSize_waits (fun h => ?_) chunkSize_lastError fun ctx h => ?_
  · rw [chunkSize_fail h]
    rfl
  · refine ⟨by simp [ParseChunkSizeContext.lastError, h], fun ch tail => ?_⟩
    change chunkSizeTurn ctx ch tail = _
    simp only [chunkSizeTurn, h]

/-! ## The extensions of a chunk -/

section

variable {η : Type*} (callback : ChunkExtensionCallback η)

/-- A token of an extension ends in front of a character. -/
theorem parseExtTokenNameValue_finished {token token' input rest : Bytes}
    (h : parseExtTokenNameValue token input = .finished token' rest) : rest ≠ [] := by
  rw [parseExtTokenNameValue] at h
  induction input generalizing token with
  | nil => cases h
  | cons ch text ih =>
      rw [scanToken] at h
      split at h
      · exact ih h
      · cases h
        exact List.cons_ne_nil _ _
      · rename_i hact
        split at hact <;> cases hact
      · cases h

theorem parseExtTokenNameValue_failed {token token' input : Bytes} {e : Error} :
    parseExtTokenNameValue token input ≠ .failed token' e := by
  intro h
  obtain ⟨t, ch, hact⟩ := scanToken_failed_act h
  split_ifs at hact

/-- An extension behind the white space. -/
abbrev behindBws (ctx : ParseChunkExtensionsContext) (env : η) (next : ExtensionsNext) :
    Bytes → Turn (ParseChunkExtensionsContext × η) UInt8 Error
  | [] => .stop (ctx, env) []
  | b :: rest => .next ({ ctx with stage := next.stage }, env) (b :: rest)

/-- An extension behind its name. -/
abbrev behindName (ctx : ParseChunkExtensionsContext) (env : η) (name rest : Bytes) :
    Turn (ParseChunkExtensionsContext × η) UInt8 Error :=
  if name = [] then .fail ({ ctx with name }, env) rest .badChunkExtension
  else
    match rest with
    | [] => .fail ({ ctx with name }, env) [] .badChunkExtension
    | b :: rest =>
      if b = 0x3d then .next ({ ctx with name, stage := .bws .valueStart }, env) rest
      else if isHttpWs b then .next ({ ctx with name, stage := .bws .eqOrColon }, env) (b :: rest)
      else
        let r := callExtension callback env name []
        match r.2 with
        | none => .stop ({ ctx with name := [], stage := .done }, r.1) (b :: rest)
        | some e => .fail ({ ctx with name := [], stage := .done }, r.1) (b :: rest) e

theorem extensions_resumes (s : ParseChunkExtensionsContext × η) (ch : UInt8) (tail : Bytes) :
    (extensionsMachine callback).Resumes s ch tail := by
  obtain ⟨ctx, env⟩ := s
  have hturn : (extensionsMachine callback).turn = extensionsTurn callback := rfl
  cases hstage : ctx.stage with
  | check =>
      by_cases hws : isHttpWs ch = true
      · refine resumes_char (.inl ⟨({ ctx with stage := .bws .colon }, env), fun t => ?_⟩) tail
        simp only [hturn, extensionsTurn, hstage, if_pos hws]
      by_cases hsemicolon : ch = 0x3b
      · refine resumes_char (.inl ⟨({ ctx with stage := .bws .name }, env), fun t => ?_⟩) tail
        simp only [hturn, extensionsTurn, hstage, if_neg hws, if_pos hsemicolon]
      · have h : ∀ t, extensionsTurn callback (ctx, env) ch t = .stop ({ ctx with stage := .done }, env) (ch :: t) := fun t => by
          simp only [extensionsTurn, hstage, if_neg hws, if_neg hsemicolon]
        exact .final (h tail) (fun u => h (tail ++ u)) fun b u => rfl
  | bws next =>
      have hbws : ∀ ch tail, extensionsTurn callback (ctx, env) ch tail =
          behindBws ctx env next (consumeOws (ch :: tail)) := by
        intro ch tail
        rcases hows : consumeOws (ch :: tail) with _ | ⟨b, rest⟩ <;> simp only [extensionsTurn, hstage, hows]
      cases hows : consumeOws (ch :: tail) with
      | nil =>
          have h : extensionsTurn callback (ctx, env) ch tail = .stop (ctx, env) [] := by rw [hbws, hows]
          refine .part (.inr h) fun b u => ?_
          have hmore := consumeOws_nil hows (b :: u)
          rw [List.cons_append] at hmore
          rw [hturn, hbws, hmore, hbws]
          exact .same _
      | cons b rest =>
          have h : ∀ u, extensionsTurn callback (ctx, env) ch (tail ++ u) =
              .next ({ ctx with stage := next.stage }, env) (b :: rest ++ u) := by
            intro u
            have hmore := consumeOws_cons hows u
            rw [List.cons_append] at hmore
            rw [hbws, hmore]
            rfl
          exact .shift (by simpa [hturn] using h []) h
  | colon =>
      refine resumes_char ?_ tail
      simp only [hturn, extensionsTurn, hstage]
      by_cases hsemicolon : ch ≠ 0x3b
      · exact .inr ⟨_, _, fun t => if_pos hsemicolon⟩
      · exact .inl ⟨_, fun t => if_neg hsemicolon⟩
  | name =>
      refine resumes_scan (fun _ ch => if isHttpTchar ch then .push else .endsBefore)
        (f := fun name => ({ ctx with name }, env))
        (g := behindName callback ctx env)
        ctx.name ch tail (fun name b u _ => ?_) (fun name rest hscan => ?_)
      · simp only [hturn, extensionsTurn, hstage, behindName]
        rfl
      · obtain ⟨b, rest, rfl⟩ := List.exists_cons_of_ne_nil (parseExtTokenNameValue_finished hscan)
        by_cases hname : name = []
        · exact .fail fun u => ⟨_, if_pos hname⟩
        by_cases heq : b = 0x3d
        · exact .next fun u => (if_neg hname).trans (if_pos heq)
        by_cases hws : isHttpWs b = true
        · exact .next (r := b :: rest) fun u => (if_neg hname).trans ((if_neg heq).trans (if_pos hws))
        cases hcall : (callExtension callback env name []).2 with
        | none =>
            have hdone : ∀ env b u, (extensionsMachine callback).turn ({ ctx with name := [], stage := .done }, env) b u =
                .stop ({ ctx with name := [], stage := .done }, env) (b :: u) := fun _ _ _ => rfl
            refine .final (r := b :: rest) (fun u => ?_) (hdone (callExtension callback env name []).1)
            refine (if_neg hname).trans ((if_neg heq).trans ((if_neg hws).trans ?_))
            simp only [hcall, List.cons_append]
            rfl
        | some e =>
            refine @Finishes.fail _ _ _ _ ({ ctx with name := [], stage := .done }, (callExtension callback env name []).1) e
              fun u => ⟨b :: rest ++ u, (if_neg hname).trans ((if_neg heq).trans ((if_neg hws).trans ?_))⟩
            simp only [hcall, List.cons_append]
            rfl
  | eqOrColon =>
      by_cases heq : ch = 0x3d
      · refine resumes_char (.inl ⟨({ ctx with stage := .bws .valueStart }, env), fun t => ?_⟩) tail
        simp only [hturn, extensionsTurn, hstage, if_pos heq]
      by_cases hsemicolon : ch = 0x3b
      · cases hcall : (callExtension callback env ctx.name []).2 with
        | none =>
            have h : ∀ t, extensionsTurn callback (ctx, env) ch t =
                .next ({ ctx with name := [], stage := .bws .name }, (callExtension callback env ctx.name []).1) t := fun t => by
              simp only [extensionsTurn, hstage, if_neg heq, if_pos hsemicolon, hcall]
            exact resumes_char (.inl ⟨_, h⟩) tail
        | some e =>
            have h : ∀ t, extensionsTurn callback (ctx, env) ch t =
                .fail ({ ctx with name := [], stage := .bws .name }, (callExtension callback env ctx.name []).1) t e := fun t => by
              simp only [extensionsTurn, hstage, if_neg heq, if_pos hsemicolon, hcall]
            exact .fail (h tail) fun u => ⟨_, h (tail ++ u)⟩
      · refine resumes_char (.inr ⟨(ctx, env), .badChunkExtension, fun t => ?_⟩) tail
        simp only [hturn, extensionsTurn, hstage, if_neg heq, if_neg hsemicolon]
  | valueStart =>
      refine resumes_char ?_ tail
      simp only [hturn, extensionsTurn, hstage]
      by_cases hquote : ch = 0x22
      · exact .inl ⟨_, fun t => if_pos hquote⟩
      by_cases htchar : isHttpTchar ch = true
      · exact .inl ⟨_, fun t => (if_neg hquote).trans (if_pos htchar)⟩
      · exact .inr ⟨_, _, fun t => (if_neg hquote).trans (if_neg htchar)⟩
  | tokenValue =>
      refine resumes_scan (fun _ ch => if isHttpTchar ch then .push else .endsBefore)
        (f := fun value => ({ ctx with value }, env))
        (g := fun value rest => .next ({ ctx with value, stage := .reportNameValue }, env) rest)
        ctx.value ch tail (fun value b u _ => ?_) (fun value rest _ => .next fun u => rfl)
      simp only [hturn, extensionsTurn, hstage]
      rfl
  | quotedValue =>
      refine resumes_scan
        (fun _ ch => if ch = 0x22 then .endsWith else if isQdtext ch then .push else .refuse .badChunkExtension)
        (f := fun value => ({ ctx with value }, env))
        (g := fun value rest => .next ({ ctx with value, stage := .reportNameValue }, env) rest)
        ctx.value ch tail (fun value b u _ => ?_) (fun value rest _ => .next fun u => rfl)
      simp only [hturn, extensionsTurn, hstage]
      rfl
  | reportNameValue =>
      cases hcall : (callExtension callback env ctx.name ctx.value).2 with
      | none =>
          have h : ∀ t, extensionsTurn callback (ctx, env) ch t =
              .next ({ ctx with name := [], value := [], stage := .check }, (callExtension callback env ctx.name ctx.value).1)
                (ch :: t) := fun t => by
            simp only [extensionsTurn, hstage, hcall]
          exact .shift (h tail) fun u => h (tail ++ u)
      | some e =>
          have h : ∀ t, extensionsTurn callback (ctx, env) ch t =
              .fail (ctx, (callExtension callback env ctx.name ctx.value).1) (ch :: t) e := fun t => by
            simp only [extensionsTurn, hstage, hcall]
          exact .fail (h tail) fun u => ⟨_, h (tail ++ u)⟩
  | done => exact resumes_idle (fun t => by simp only [hturn, extensionsTurn, hstage]) tail
  | error => exact resumes_idle (fun t => by simp only [hturn, extensionsTurn, hstage]) tail
  | undefined => exact resumes_idle (fun t => by simp only [hturn, extensionsTurn, hstage]) tail

theorem extensions_waits :
    (extensionsMachine callback).Waits (fun s => s.1.stage = .done ∨ s.1.lastError ≠ none) fun _ _ => False where
  nil _ := id
  turn s ch tail := by
    obtain ⟨ctx, env⟩ := s
    change False ↔ (extensionsTurn callback (ctx, env) ch tail).Waits _ _
    refine iff_of_false id ?_
    cases hstage : ctx.stage with
    | check =>
        simp only [extensionsTurn, hstage]
        split
        · exact id
        split
        · exact id
        · exact fun h => h.2 (.inl rfl)
    | bws next =>
        simp only [extensionsTurn, hstage]
        split
        · exact fun h => h.1 rfl
        · exact id
    | colon =>
        simp only [extensionsTurn, hstage]
        split <;> exact id
    | name =>
        simp only [extensionsTurn, hstage]
        split
        · exact id
        · exact fun h => h.1 rfl
        split
        · exact id
        split
        · exact id
        split
        · exact id
        split
        · exact id
        split
        · exact fun h => h.2 (.inl rfl)
        · exact id
    | eqOrColon =>
        simp only [extensionsTurn, hstage]
        split
        · exact id
        split
        · split <;> exact id
        · exact id
    | valueStart =>
        simp only [extensionsTurn, hstage]
        split
        · exact id
        split <;> exact id
    | tokenValue =>
        simp only [extensionsTurn, hstage]
        split
        · exact id
        · exact fun h => h.1 rfl
        · exact id
    | quotedValue =>
        simp only [extensionsTurn, hstage]
        split
        · exact id
        · exact fun h => h.1 rfl
        · exact id
    | reportNameValue =>
        simp only [extensionsTurn, hstage]
        split <;> exact id
    | done =>
        simp only [extensionsTurn, hstage]
        exact fun h => h.2 (.inl hstage)
    | error =>
        simp only [extensionsTurn, hstage]
        exact fun h => h.2 (.inr (by simp [ParseChunkExtensionsContext.lastError, hstage]))
    | undefined =>
        simp only [extensionsTurn, hstage]
        exact fun h => h.2 (.inr (by simp [ParseChunkExtensionsContext.lastError, hstage]))

theorem extensions_lastError (s : ParseChunkExtensionsContext × η) (ch : UInt8) (tail : Bytes)
    (h : s.1.lastError = none) : ((extensionsMachine callback).turn s ch tail).state.1.lastError = none := by
  have hnot : ∀ ctx : ParseChunkExtensionsContext, ctx.lastError = none ↔ ctx.stage ≠ .error ∧ ctx.stage ≠ .undefined := by
    intro ctx
    rw [ParseChunkExtensionsContext.lastError]
    cases ctx.stage <;> simp
  obtain ⟨ctx, env⟩ := s
  change (extensionsTurn callback (ctx, env) ch tail).state.1.lastError = none
  rw [hnot] at h ⊢
  cases hstage : ctx.stage with
  | check =>
      simp only [extensionsTurn, hstage]
      split
      · exact ⟨(fun h => by cases h), (fun h => by cases h)⟩
      split <;> exact ⟨(fun h => by cases h), (fun h => by cases h)⟩
  | bws next =>
      simp only [extensionsTurn, hstage]
      split
      · exact h
      · cases next <;> exact ⟨(fun h => by cases h), (fun h => by cases h)⟩
  | colon =>
      simp only [extensionsTurn, hstage]
      split
      · exact h
      · exact ⟨(fun h => by cases h), (fun h => by cases h)⟩
  | name =>
      simp only [extensionsTurn, hstage]
      split
      · exact ⟨(fun h => by cases h), (fun h => by cases h)⟩
      · exact ⟨(fun h => by cases h), (fun h => by cases h)⟩
      split
      · exact ⟨(fun h => by cases h), (fun h => by cases h)⟩
      split
      · exact ⟨(fun h => by cases h), (fun h => by cases h)⟩
      split
      · exact ⟨(fun h => by cases h), (fun h => by cases h)⟩
      split
      · exact ⟨(fun h => by cases h), (fun h => by cases h)⟩
      split <;> exact ⟨(fun h => by cases h), (fun h => by cases h)⟩
  | eqOrColon =>
      simp only [extensionsTurn, hstage]
      split
      · exact ⟨(fun h => by cases h), (fun h => by cases h)⟩
      split
      · split <;> exact ⟨(fun h => by cases h), (fun h => by cases h)⟩
      · exact h
  | valueStart =>
      simp only [extensionsTurn, hstage]
      split
      · exact ⟨(fun h => by cases h), (fun h => by cases h)⟩
      split
      · exact ⟨(fun h => by cases h), (fun h => by cases h)⟩
      · exact h
  | tokenValue =>
      simp only [extensionsTurn, hstage]
      split <;> exact ⟨(fun h => by cases h), (fun h => by cases h)⟩
  | quotedValue =>
      simp only [extensionsTurn, hstage]
      split <;> exact ⟨(fun h => by cases h), (fun h => by cases h)⟩
  | reportNameValue =>
      simp only [extensionsTurn, hstage]
      split
      · exact ⟨(fun h => by cases h), (fun h => by cases h)⟩
      · exact h
  | done =>
      simp only [extensionsTurn, hstage]
      exact h
  | error => exact absurd hstage h.1
  | undefined => exact absurd hstage h.2

theorem parseQdtext_failed {out out' input : Bytes} {e : Error} (h : parseQdtext out input = .failed out' e) :
    e = .badChunkExtension := by
  obtain ⟨t, ch, hact⟩ := scanToken_failed_act h
  split_ifs at hact
  cases hact
  rfl

theorem callExtension_error {env : η} {name value : Bytes} {e : Error} (h : (callExtension callback env name value).2 = some e) :
    e = .badChunkExtension ∨ e = .undefined := by
  rw [callExtension] at h
  split at h
  · cases h
  split at h <;> cases h
  · exact .inr rfl
  · exact .inl rfl

theorem extensions_fail {s s' : ParseChunkExtensionsContext × η} {ch : UInt8} {tail rest : Bytes} {e : Error}
    (h : (extensionsMachine callback).turn s ch tail = .fail s' rest e) : e = .badChunkExtension ∨ e = .undefined := by
  obtain ⟨ctx, env⟩ := s
  change extensionsTurn callback (ctx, env) ch tail = _ at h
  cases hstage : ctx.stage with
  | check =>
      simp only [extensionsTurn, hstage] at h
      split at h
      · cases h
      split at h <;> cases h
  | bws next =>
      simp only [extensionsTurn, hstage] at h
      split at h <;> cases h
  | colon =>
      simp only [extensionsTurn, hstage] at h
      split at h <;> cases h
      exact .inl rfl
  | name =>
      simp only [extensionsTurn, hstage] at h
      split at h
      · rename_i hscan
        exact absurd hscan parseExtTokenNameValue_failed
      · cases h
      split at h
      · cases h
        exact .inl rfl
      split at h
      · cases h
        exact .inl rfl
      split at h
      · cases h
      split at h
      · cases h
      split at h
      · cases h
      rename_i hcall
      cases h
      exact callExtension_error callback hcall
  | eqOrColon =>
      simp only [extensionsTurn, hstage] at h
      split at h
      · cases h
      split at h
      · split at h
        · cases h
        rename_i hcall
        cases h
        exact callExtension_error callback hcall
      · cases h
        exact .inl rfl
  | valueStart =>
      simp only [extensionsTurn, hstage] at h
      split at h
      · cases h
      split at h <;> cases h
      exact .inl rfl
  | tokenValue =>
      simp only [extensionsTurn, hstage] at h
      split at h
      · rename_i hscan
        exact absurd hscan parseExtTokenNameValue_failed
      · cases h
      · cases h
  | quotedValue =>
      simp only [extensionsTurn, hstage] at h
      split at h
      · rename_i hscan
        cases h
        exact .inl (parseQdtext_failed hscan)
      · cases h
      · cases h
  | reportNameValue =>
      simp only [extensionsTurn, hstage] at h
      split at h
      · cases h
      rename_i hcall
      cases h
      exact callExtension_error callback hcall
  | done =>
      simp only [extensionsTurn, hstage] at h
      cases h
  | error =>
      simp only [extensionsTurn, hstage] at h
      cases h
  | undefined =>
      simp only [extensionsTurn, hstage] at h
      cases h

theorem extensions_suffix (s : ParseChunkExtensionsContext × η) (ch : UInt8) (tail : Bytes) :
    ((extensionsMachine callback).turn s ch tail).rest <:+ ch :: tail := by
  have htail : tail <:+ ch :: tail := List.suffix_cons _ _
  obtain ⟨ctx, env⟩ := s
  change (extensionsTurn callback (ctx, env) ch tail).rest <:+ _
  cases hstage : ctx.stage with
  | check =>
      simp only [extensionsTurn, hstage]
      split
      · exact htail
      split
      · exact htail
      · exact List.suffix_refl _
  | bws next =>
      simp only [extensionsTurn, hstage]
      split
      · exact List.nil_suffix
      · rename_i b rest hows
        change b :: rest <:+ _
        rw [← hows]
        exact List.dropWhile_suffix _
  | colon =>
      simp only [extensionsTurn, hstage]
      split
      · exact List.suffix_refl _
      · exact htail
  | name =>
      simp only [extensionsTurn, hstage]
      split
      · exact List.suffix_refl _
      · exact List.nil_suffix
      rename_i name rest hscan
      have hrest := (scanToken_rest hscan).1
      split
      · exact hrest
      split
      · exact List.nil_suffix
      split
      · exact (List.suffix_cons _ _).trans hrest
      split
      · exact hrest
      split <;> exact hrest
  | eqOrColon =>
      simp only [extensionsTurn, hstage]
      split
      · exact htail
      split
      · split <;> exact htail
      · exact List.suffix_refl _
  | valueStart =>
      simp only [extensionsTurn, hstage]
      split
      · exact htail
      split
      · exact htail
      · exact List.suffix_refl _
  | tokenValue =>
      simp only [extensionsTurn, hstage]
      split
      · exact List.suffix_refl _
      · exact List.nil_suffix
      · rename_i hscan
        exact (scanToken_rest hscan).1
  | quotedValue =>
      simp only [extensionsTurn, hstage]
      split
      · exact List.suffix_refl _
      · exact List.nil_suffix
      · rename_i hscan
        exact (scanToken_rest hscan).1
  | reportNameValue =>
      simp only [extensionsTurn, hstage]
      split <;> exact List.suffix_refl _
  | done =>
      simp only [extensionsTurn, hstage]
      exact List.suffix_refl _
  | error =>
      simp only [extensionsTurn, hstage]
      exact List.suffix_refl _
  | undefined =>
      simp only [extensionsTurn, hstage]
      exact List.suffix_refl _

theorem parseChunkExtensions_parses :
    Parses (fun (s : ParseChunkExtensionsContext × η) input => parseChunkExtensions callback s.1 s.2 input)
      fun s => s.1.stage = .done := by
  change Parses ((extensionsMachine callback).parse (·.1.lastError) fun s e => (s.1.failWith e, s.2)) _
  refine Machine.parses (extensions_resumes callback) (extensions_waits callback) (fun h => ?_)
    (extensions_lastError callback) fun s h => ?_
  · rcases extensions_fail callback h with rfl | rfl <;> rfl
  · obtain ⟨ctx, env⟩ := s
    change ctx.stage = .done at h
    refine ⟨by simp [ParseChunkExtensionsContext.lastError, h], fun ch tail => ?_⟩
    change extensionsTurn callback (ctx, env) ch tail = _
    simp only [extensionsTurn, h]

end

/-! ## The data of a chunk and the line ending behind it -/

theorem parseChunkData_parses :
    Parses (fun (s : ParseChunkDataContext × Bytes) input => parseChunkData s.1 s.2 input) fun s => s.1.size = 0 where
  incremental := by
    rintro ⟨⟨size⟩, out⟩ t u
    by_cases hsize : size = 0
    · simp only [parseChunkData, hsize, if_true]
      exact .refl _
    by_cases hlen : size ≤ t.length
    · -- all of the data is in the first part
      have htake : (t ++ u).take size = t.take size := List.take_append_of_le_length hlen
      have hconsumed : (t.take size).length = size := by rw [List.length_take]; omega
      simp only [parseChunkData, if_neg hsize, htake, hconsumed, Nat.sub_self, if_true,
        List.drop_append_of_le_length hlen]
      exact .refl _
    · have htake : t.take size = t := List.take_of_length_le (by omega)
      have hrest : size - t.length ≠ 0 := by omega
      have hall : (t ++ u).take size = t ++ u.take (size - t.length) := by
        rw [List.take_append, htake]
      simp only [parseChunkData, if_neg hsize, htake, if_neg hrest, hall, List.drop_length, List.nil_append,
        List.length_append, List.append_assoc, List.drop_append]
      have hdrop : t.drop (t.length + (u.take (size - t.length)).length) = [] := List.drop_of_length_le (by omega)
      rw [hdrop, List.nil_append, Nat.add_sub_cancel_left, Nat.sub_sub]
      exact .refl _
  done := by
    intro s h t
    simp only [parseChunkData, if_pos h]
  all := by
    rintro ⟨⟨size⟩, out⟩ t -
    by_cases hsize : size = 0
    · simp only [parseChunkData, hsize, if_true]
      exact .inr trivial
    · simp only [parseChunkData, if_neg hsize, List.length_take]
      rcases Nat.le_total size t.length with h | h
      · exact .inr (by omega)
      · exact .inl (List.drop_of_length_le (by omega))
  lasting := by
    rintro ⟨⟨size⟩, out⟩ t e h u
    simp only [parseChunkData] at h
    split at h <;> cases h

theorem parseChunkData_length (ctx : ParseChunkDataContext) (out input : Bytes) :
    (parseChunkData ctx out input).rest.length ≤ input.length := by
  rw [parseChunkData]
  split
  · exact Nat.le_refl _
  · exact (List.drop_sublist _ _).length_le

theorem chunkTrailingCrlf_resumes (ctx : ParseChunkTrailingCrlfCtx) (ch : UInt8) (tail : Bytes) :
    chunkTrailingCrlfMachine.Resumes ctx ch tail := by
  have hturn : chunkTrailingCrlfMachine.turn = chunkTrailingCrlfTurn := rfl
  by_cases hdone : ctx.isDone = true
  · exact resumes_idle (fun t => by simp only [hturn, chunkTrailingCrlfTurn, if_pos hdone]) tail
  refine resumes_char ?_ tail
  simp only [hturn, chunkTrailingCrlfTurn, if_neg hdone]
  by_cases hother : ch ≠ ctx.expectedChar
  · exact .inr ⟨_, _, fun t => if_pos hother⟩
  by_cases hcr : ctx.expectedChar = 0x0d
  · exact .inl ⟨_, fun t => (if_neg hother).trans (if_pos hcr)⟩
  · exact .inl ⟨_, fun t => (if_neg hother).trans (if_neg hcr)⟩

theorem chunkTrailingCrlf_suffix (ctx : ParseChunkTrailingCrlfCtx) (ch : UInt8) (tail : Bytes) :
    (chunkTrailingCrlfMachine.turn ctx ch tail).rest <:+ ch :: tail := by
  change (chunkTrailingCrlfTurn ctx ch tail).rest <:+ _
  rw [chunkTrailingCrlfTurn]
  split
  · exact List.suffix_refl _
  split
  · exact List.suffix_refl _
  split <;> exact List.suffix_cons _ _

theorem chunkTrailingCrlf_waits :
    chunkTrailingCrlfMachine.Waits (fun ctx => (ctx.isDone = true ∧ ctx.isError = false) ∨ ctx.lastError ≠ none)
      fun _ _ => False where
  nil _ := id
  turn ctx ch tail := by
    change False ↔ (chunkTrailingCrlfTurn ctx ch tail).Waits _ _
    refine iff_of_false id ?_
    rw [chunkTrailingCrlfTurn]
    split
    · rename_i hdone
      intro h
      cases herror : ctx.isError with
      | false => exact h.2 (.inl ⟨hdone, herror⟩)
      | true => exact h.2 (.inr (by simp [ParseChunkTrailingCrlfCtx.lastError, herror]))
    split
    · exact id
    split <;> exact id

theorem chunkTrailingCrlf_lastError (ctx : ParseChunkTrailingCrlfCtx) (ch : UInt8) (tail : Bytes)
    (h : ctx.lastError = none) : (chunkTrailingCrlfMachine.turn ctx ch tail).state.lastError = none := by
  change (chunkTrailingCrlfTurn ctx ch tail).state.lastError = none
  rw [chunkTrailingCrlfTurn]
  split
  · exact h
  split
  · exact h
  split <;> exact h

theorem parseChunkTrailingCrlf_parses :
    Parses parseChunkTrailingCrlf fun ctx => ctx.isDone = true ∧ ctx.isError = false := by
  change Parses (chunkTrailingCrlfMachine.parse ParseChunkTrailingCrlfCtx.lastError fun ctx _ =>
    { ctx with isError := true }) _
  refine Machine.parses chunkTrailingCrlf_resumes chunkTrailingCrlf_waits ?_ chunkTrailingCrlf_lastError fun ctx h => ?_
  · rintro s a t s' rest e h
    change chunkTrailingCrlfTurn s a t = _ at h
    rw [chunkTrailingCrlfTurn] at h
    split at h
    · cases h
    split at h
    · cases h
      rfl
    split at h <;> cases h
  · refine ⟨by simp [ParseChunkTrailingCrlfCtx.lastError, h.2], fun ch tail => ?_⟩
    change chunkTrailingCrlfTurn ctx ch tail = _
    simp only [chunkTrailingCrlfTurn, if_pos h.1]

/-! ## Trailers -/

theorem parseHeaders_parses {η : Type*} (onHeader : HeaderCallback η) :
    Parses (fun (s : ParseHeadersContext × η) input => parseHeaders onHeader s.1 s.2 input) fun s => s.1.stage = .done := by
  change Parses ((headersMachine onHeader).parse (·.1.lastError) fun s e => (s.1.failWith e, s.2)) _
  refine Machine.parses (headers_resumes onHeader) (headers_waits onHeader) (fun _ => rfl)
    (fun s ch tail => (headersTurn_keeps onHeader s ch tail).lastError) fun s h => ?_
  obtain ⟨ctx, env⟩ := s
  change ctx.stage = .done at h
  refine ⟨by simp [ParseHeadersContext.lastError, h], fun ch tail => ?_⟩
  change headersTurn onHeader (ctx, env) ch tail = _
  simp only [headersTurn, h]

end Rad.Http
