import Rad.Http.Lemmas.Tokens
import Rad.Http.Parser

/-!
# Texts that end in a token

Where the parsers of lines leave the beginning of a token in the buffer.
-/

namespace Rad.Http

open Lib

/-! ## Tokens -/

theorem endsInVersion_iff {input : Bytes} : EndsInVersion input ↔ input = [0x31] ∨ input = [0x31, 0x2e] := Iff.rfl

theorem stringToVersion_eq_invalid {c : UInt8} : stringToVersion [0x31, 0x2e, c] = .invalid ↔ c ≠ 0x30 ∧ c ≠ 0x31 := by
  have hversions : httpVersions = [([0x31, 0x2e, 0x30], .v1_0), ([0x31, 0x2e, 0x31], .v1_1)] := rfl
  by_cases h0 : c = 0x30
  · subst h0; decide
  by_cases h1 : c = 0x31
  · subst h1; decide
  rw [stringToVersion, hversions]
  simp [Ne.symm h0, Ne.symm h1, h0, h1]

theorem parseHttpVersion_found {e : Bytes × Version} (he : e ∈ httpVersions) (rest : Bytes) :
    parseHttpVersion (e.1 ++ rest) = .ok (some (e.2, rest)) := by
  have hversions : httpVersions = [([0x31, 0x2e, 0x30], .v1_0), ([0x31, 0x2e, 0x31], .v1_1)] := rfl
  rw [hversions] at he
  rcases List.mem_cons.1 he with rfl | he
  · rfl
  · cases List.mem_singleton.1 he
    rfl

/-- What a version is read from. -/
theorem parseHttpVersion_cases {input : Bytes} (hne : input ≠ []) :
    (∃ e ∈ httpVersions, ∃ rest, input = e.1 ++ rest ∧ parseHttpVersion input = .ok (some (e.2, rest))) ∨
    (EndsInVersion input ∧ parseHttpVersion input = .ok none) ∨
    ((¬EndsInVersion input ∧ ∀ e ∈ httpVersions, ¬e.1 <+: input) ∧ parseHttpVersion input = .error .badVersion) := by
  have hversions : httpVersions = [([0x31, 0x2e, 0x30], .v1_0), ([0x31, 0x2e, 0x31], .v1_1)] := rfl
  rw [endsInVersion_iff, hversions]
  match input, hne with
  | [a], _ =>
      by_cases ha : a = 0x31
      · subst ha
        exact .inr (.inl ⟨.inl rfl, rfl⟩)
      · refine .inr (.inr ⟨by simp [ha], ?_⟩)
        simp [parseHttpVersion, ha]
  | [a, b], _ =>
      by_cases ha : a = 0x31
      · subst ha
        by_cases hb : b = 0x2e
        · subst hb
          exact .inr (.inl ⟨.inr rfl, rfl⟩)
        · refine .inr (.inr ⟨by simp [hb], ?_⟩)
          simp [parseHttpVersion, hb]
      · refine .inr (.inr ⟨by simp [ha], ?_⟩)
        simp [parseHttpVersion, ha]
  | a :: b :: c :: rest, _ =>
      by_cases ha : a = 0x31
      · subst ha
        by_cases hb : b = 0x2e
        · subst hb
          by_cases h0 : c = 0x30
          · subst h0
            exact .inl ⟨_, List.mem_cons_self, rest, rfl, rfl⟩
          by_cases h1 : c = 0x31
          · subst h1
            exact .inl ⟨_, List.mem_cons_of_mem _ List.mem_cons_self, rest, rfl, rfl⟩
          refine .inr (.inr ⟨by simp [Ne.symm h0, Ne.symm h1], ?_⟩)
          simp [parseHttpVersion, stringToVersion_eq_invalid.2 ⟨h0, h1⟩]
        · refine .inr (.inr ⟨by simp [Ne.symm hb, hb], ?_⟩)
          simp [parseHttpVersion, hb]
      · refine .inr (.inr ⟨by simp [Ne.symm ha, ha], ?_⟩)
        simp [parseHttpVersion, ha]

/-- What is left in the buffer of a status. -/
theorem parseHttpStatus_none {input : Bytes} (hne : input ≠ []) :
    parseHttpStatus input = .ok none ↔ EndsInStatus input := by
  have hhead : (input.take 3).headD 0 = 0x30 ↔ input.head? = some 0x30 := by
    cases input with
    | nil => exact absurd rfl hne
    | cons b input => simp
  rw [parseHttpStatus, EndsInStatus]
  simp only [hhead]
  by_cases hzero : input.head? = some 0x30
  · simp [hzero]
  by_cases hlen : input.length < 3
  · have htake : input.take 3 = input := List.take_of_length_le (by omega)
    simp only [htake, if_neg hzero, if_pos hlen]
    split <;> simp_all
  · have htake : ¬(input.take 3).length < 3 := by rw [List.length_take]; omega
    simp only [if_neg hzero, if_neg htake]
    split <;> simp [hlen]

theorem parseTargetAndSp_finished {target target' input rest : Bytes} :
    parseTargetAndSp target input = .finished target' rest ↔
      ∃ x, input = x ++ 0x20 :: rest ∧ target' = target ++ x ∧ ∀ b ∈ x, b ≠ 0x20 ∧ isHttpVchar b = true := by
  have hbefore : ∀ (t : Bytes) (ch : UInt8),
      (if ch = 0x20 then CharAct.endsWith else if isHttpVchar ch then .push else .refuse .badTarget) ≠ .endsBefore := by
    intro t ch
    split_ifs <;> nofun
  have hends : ∀ ch : UInt8,
      (if ch = 0x20 then CharAct.endsWith else if isHttpVchar ch then .push else .refuse .badTarget) = .endsWith ↔
        ch = 0x20 := by
    intro ch
    split_ifs with h <;> simp [h]
  have hpush : ∀ ch : UInt8,
      (if ch = 0x20 then CharAct.endsWith else if isHttpVchar ch then .push else .refuse .badTarget) = .push ↔
        ch ≠ 0x20 ∧ isHttpVchar ch = true := by
    intro ch
    split_ifs with h <;> simp_all
  rw [parseTargetAndSp, scanToken_finished_iff hbefore]
  simp only [hends, hpush]
  constructor
  · rintro ⟨x, ch, hinput, htarget, rfl, hx⟩
    refine ⟨x, hinput, htarget, fun b hb => ?_⟩
    obtain ⟨y, z, rfl⟩ := List.append_of_mem hb
    exact hx y b z rfl
  · rintro ⟨x, hinput, htarget, hx⟩
    exact ⟨x, 0x20, hinput, htarget, rfl, fun y b z hsplit => hx b (by simp [hsplit])⟩

/-! ## What is behind a token -/

theorem endsInMethod_iff {P : Verb → Bytes → Prop} {t : Bytes} (hne : t ≠ []) :
    ((∃ e ∈ httpVerbs, Begins e.1 t) ∨ ∃ e ∈ httpVerbs, ∃ u, t = e.1 ++ u ∧ P e.2 u) ↔
      parseHttpMethod t = .ok none ∨ ∃ v rest, parseHttpMethod t = .ok (some (v, rest)) ∧ P v rest := by
  constructor
  · rintro (⟨e, he, -, hbegins, hproper⟩ | ⟨e, he, u, rfl, hu⟩)
    · rcases parseHttpMethod_cases t with ⟨e', he', rest, rfl, -⟩ | ⟨-, h⟩ | ⟨hnone, -⟩
      · have heq := httpVerbs_comparable he' he ((List.prefix_append _ _).trans hbegins)
        subst heq
        exact absurd (hbegins.eq_of_length (Nat.le_antisymm hbegins.length_le (List.prefix_append _ _).length_le)) hproper
      · exact .inl h
      · exact absurd hbegins (hnone e he).2
    · exact .inr ⟨e.2, u, parseHttpMethod_found he u, hu⟩
  · rintro (h | ⟨v, rest, h, hrest⟩)
    · rcases parseHttpMethod_cases t with ⟨_, _, _, -, h'⟩ | ⟨⟨e, he, hbegins, hproper⟩, -⟩ | ⟨-, h'⟩
      · rw [h] at h'; cases h'
      · exact .inl ⟨e, he, hne, hbegins, hproper⟩
      · rw [h] at h'; cases h'
    · rcases parseHttpMethod_cases t with ⟨e, he, rest', htext, h'⟩ | ⟨-, h'⟩ | ⟨-, h'⟩
      · rw [h] at h'
        cases h'
        exact .inr ⟨e, he, rest, htext, hrest⟩
      · rw [h] at h'; cases h'
      · rw [h] at h'; cases h'

theorem endsInSlash_iff {next : Bytes → Prop} {t : Bytes} (hne : t ≠ []) :
    EndsInSlash next t ↔ parseHttpSlash t = .ok none ∨ ∃ rest, parseHttpSlash t = .ok (some rest) ∧ next rest := by
  constructor
  · rintro (⟨-, hbegins, hproper⟩ | ⟨u, rfl, hu⟩)
    · rcases parseHttpSlash_cases t with ⟨rest, rfl, -⟩ | ⟨-, h⟩ | ⟨hnone, -⟩
      · exact absurd (hbegins.eq_of_length (Nat.le_antisymm hbegins.length_le (List.prefix_append _ _).length_le)) hproper
      · exact .inl h
      · exact absurd hbegins hnone.2
    · exact .inr ⟨u, parseHttpSlash_found u, hu⟩
  · rintro (h | ⟨rest, h, hrest⟩)
    · rcases parseHttpSlash_cases t with ⟨_, -, h'⟩ | ⟨⟨hbegins, hproper⟩, -⟩ | ⟨-, h'⟩
      · rw [h] at h'; cases h'
      · exact .inl ⟨hne, hbegins, hproper⟩
      · rw [h] at h'; cases h'
    · rcases parseHttpSlash_cases t with ⟨rest', htext, h'⟩ | ⟨-, h'⟩ | ⟨-, h'⟩
      · rw [h] at h'
        cases h'
        exact .inr ⟨rest, htext, hrest⟩
      · rw [h] at h'; cases h'
      · rw [h] at h'; cases h'

theorem endsInVersion_iff_parse {t : Bytes} (hne : t ≠ []) : EndsInVersion t ↔ parseHttpVersion t = .ok none := by
  rcases parseHttpVersion_cases hne with ⟨e, he, rest, rfl, h⟩ | ⟨hends, h⟩ | ⟨⟨hends, -⟩, h⟩
  · have hlen : ∀ e ∈ httpVersions, e.1.length = 3 := by decide
    rw [h]
    refine ⟨fun hends => ?_, nofun⟩
    rcases endsInVersion_iff.1 hends with h | h
    · have hlen' := congrArg List.length h
      simp only [List.length_append, hlen e he, List.length_cons, List.length_nil] at hlen'
      omega
    · have hlen' := congrArg List.length h
      simp only [List.length_append, hlen e he, List.length_cons, List.length_nil] at hlen'
      omega
  · exact iff_of_true hends h
  · rw [h]
    exact iff_of_false hends nofun

theorem endsInVersionOrStatus_iff {t : Bytes} (hne : t ≠ []) :
    EndsInVersionOrStatus t ↔
      parseHttpVersion t = .ok none ∨ ∃ v rest, parseHttpVersion t = .ok (some (v, rest)) ∧ EndsBehindSp EndsInStatus rest := by
  rw [EndsInVersionOrStatus, endsInVersion_iff_parse hne]
  refine or_congr_right ?_
  constructor
  · rintro ⟨e, he, u, rfl, hu⟩
    exact ⟨e.2, u, parseHttpVersion_found he u, hu⟩
  · rintro ⟨v, rest, h, hrest⟩
    rcases parseHttpVersion_cases hne with ⟨e, he, rest', htext, h'⟩ | ⟨-, h'⟩ | ⟨-, h'⟩
    · rw [h] at h'
      cases h'
      exact ⟨e, he, rest, htext, hrest⟩
    · rw [h] at h'; cases h'
    · rw [h] at h'; cases h'

theorem endsBehindSp_cons {next : Bytes → Prop} {ch : UInt8} {tail : Bytes} :
    EndsBehindSp next (ch :: tail) ↔ isHttpSp ch = true ∧ next tail := by
  rw [EndsBehindSp, isHttpSp, beq_iff_eq]
  constructor
  · rintro ⟨u, h, hnext⟩
    cases h
    exact ⟨rfl, hnext⟩
  · rintro ⟨rfl, hnext⟩
    exact ⟨tail, rfl, hnext⟩

theorem endsBehindTarget_finished {method : Verb} {target target' input rest : Bytes}
    (h : parseTargetAndSp target input = .finished target' rest) :
    EndsBehindTarget method target input ↔ validateTarget method target' = none ∧ EndsInSlash EndsInVersion rest := by
  constructor
  · rintro ⟨x, u, hinput, hx, hvalid, hends⟩
    rw [parseTargetAndSp_finished.2 ⟨x, hinput, rfl, hx⟩] at h
    cases h
    exact ⟨hvalid, hends⟩
  · rintro ⟨hvalid, hends⟩
    obtain ⟨x, hinput, rfl, hx⟩ := parseTargetAndSp_finished.1 h
    exact ⟨x, rest, hinput, hx, hvalid, hends⟩

theorem endsBehindTarget_not {method : Verb} {target input : Bytes}
    (h : ∀ target' rest, parseTargetAndSp target input ≠ .finished target' rest) :
    ¬EndsBehindTarget method target input := by
  rintro ⟨x, u, hinput, hx, -, -⟩
  exact h _ _ (parseTargetAndSp_finished.2 ⟨x, hinput, rfl, hx⟩)

/-! ## The lines -/

theorem endsInVersion_nil : ¬EndsInVersion [] := by simp [endsInVersion_iff]

theorem endsInSlash_nil {next : Bytes → Prop} : ¬EndsInSlash next [] := by
  rintro (⟨h, -⟩ | ⟨u, h, -⟩)
  · exact h rfl
  · cases h

theorem requestLine_waits : requestLineMachine.Waits (fun ctx => ctx.stage = .done ∨ ctx.lastError ≠ none)
    ParseRequestLineContext.EndsInToken where
  nil ctx := by
    cases hstage : ctx.stage with
    | sp next => cases next <;> simp [ParseRequestLineContext.EndsInToken, hstage, EndsBehindSp]
    | httpSlash =>
        simp only [ParseRequestLineContext.EndsInToken, hstage]
        exact endsInSlash_nil
    | version =>
        simp only [ParseRequestLineContext.EndsInToken, hstage]
        exact endsInVersion_nil
    | _ => simp [ParseRequestLineContext.EndsInToken, hstage, Begins, EndsBehindSp, EndsBehindTarget, EndsBehindTargetStart]
  turn ctx ch tail := by
    have hne : ch :: tail ≠ [] := List.cons_ne_nil _ _
    change _ ↔ (requestLineTurn ctx ch tail).Waits _ _
    cases hstage : ctx.stage with
    | method =>
        simp only [requestLineTurn, ParseRequestLineContext.EndsInToken, hstage]
        refine (endsInMethod_iff (P := fun v => EndsBehindSp (EndsBehindTargetStart v ctx.target)) hne).trans ?_
        rcases parseHttpMethod (ch :: tail) with e | _ | ⟨v, rest⟩
        · simp [Turn.Waits]
        · simp [Turn.Waits, hstage, ParseRequestLineContext.lastError]
        · simp [Turn.Waits, ParseRequestLineContext.EndsInToken]
    | sp next =>
        have hsp : ctx.EndsInToken (ch :: tail) ↔ isHttpSp ch = true ∧ { ctx with stage := next.stage }.EndsInToken tail := by
          cases next <;> simp only [ParseRequestLineContext.EndsInToken, hstage, endsBehindSp_cons, RequestLineNext.stage]
        rw [hsp]
        simp only [requestLineTurn, hstage]
        split
        · rename_i hch
          exact and_iff_right hch
        · rename_i hch
          exact iff_of_false (fun h => hch h.1) id
    | targetStart =>
        simp only [requestLineTurn, ParseRequestLineContext.EndsInToken, hstage]
        rw [EndsBehindTargetStart]
        split
        · rename_i hbad
          refine iff_of_false ?_ id
          rintro ⟨b, u, h, hvchar, hstar, hslash, -⟩
          cases h
          rcases hbad with ⟨hch, hmethod⟩ | ⟨hch, hmethod⟩ | hch
          · exact hmethod (hstar hch)
          · exact hslash hch hmethod
          · rw [hvchar] at hch
            cases hch
        · rename_i hgood
          have hvchar : isHttpVchar ch = true := by
            cases h : isHttpVchar ch with
            | true => rfl
            | false => exact absurd (.inr (.inr h)) hgood
          have hstar : ch = 0x2a → ctx.method = .options := fun hch =>
            by_contra fun hmethod => hgood (.inl ⟨hch, hmethod⟩)
          have hslash : ch = 0x2f → ctx.method ≠ .connect := fun hch hmethod => hgood (.inr (.inl ⟨hch, hmethod⟩))
          change _ ↔ ParseRequestLineContext.EndsInToken _ _
          have hbehind : (∃ b u, ch :: tail = b :: u ∧ isHttpVchar b = true ∧ (b = 0x2a → ctx.method = .options) ∧
              (b = 0x2f → ctx.method ≠ .connect) ∧
              if b = 0x2a then EndsBehindSp (EndsInSlash EndsInVersion) u
              else EndsBehindTarget ctx.method (ctx.target ++ [b]) u) ↔
              if ch = 0x2a then EndsBehindSp (EndsInSlash EndsInVersion) tail
              else EndsBehindTarget ctx.method (ctx.target ++ [ch]) tail := by
            constructor
            · rintro ⟨b, u, h, -, -, -, hends⟩
              cases h
              exact hends
            · intro hends
              exact ⟨ch, tail, rfl, hvchar, hstar, hslash, hends⟩
          rw [hbehind]
          by_cases hch : ch = 0x2a
          · simp [hch, ParseRequestLineContext.EndsInToken]
          · simp [hch, ParseRequestLineContext.EndsInToken]
    | target =>
        simp only [requestLineTurn, ParseRequestLineContext.EndsInToken, hstage]
        cases hscan : parseTargetAndSp ctx.target (ch :: tail) with
        | more target =>
            refine iff_of_false (endsBehindTarget_not ?_) fun h => h.1 rfl
            rw [hscan]
            simp
        | failed target e =>
            refine iff_of_false (endsBehindTarget_not ?_) id
            rw [hscan]
            simp
        | finished target rest =>
            rw [endsBehindTarget_finished hscan]
            simp only
            cases validateTarget ctx.method target with
            | some e => simp [Turn.Waits]
            | none => simp [Turn.Waits, ParseRequestLineContext.EndsInToken]
    | httpSlash =>
        simp only [requestLineTurn, ParseRequestLineContext.EndsInToken, hstage]
        rw [endsInSlash_iff hne]
        rcases parseHttpSlash (ch :: tail) with e | _ | rest
        · simp [Turn.Waits]
        · simp [Turn.Waits, hstage, ParseRequestLineContext.lastError]
        · simp [Turn.Waits, ParseRequestLineContext.EndsInToken]
    | version =>
        simp only [requestLineTurn, ParseRequestLineContext.EndsInToken, hstage]
        rw [endsInVersion_iff_parse hne]
        rcases parseHttpVersion (ch :: tail) with e | _ | ⟨v, rest⟩
        · simp [Turn.Waits]
        · simp [Turn.Waits, hstage, ParseRequestLineContext.lastError]
        · simp [Turn.Waits, ParseRequestLineContext.EndsInToken]
    | cr =>
        simp only [requestLineTurn, ParseRequestLineContext.EndsInToken, hstage]
        split <;> exact iff_of_false id id
    | lf =>
        simp only [requestLineTurn, ParseRequestLineContext.EndsInToken, hstage]
        split <;> exact iff_of_false id id
    | done =>
        simp only [requestLineTurn, ParseRequestLineContext.EndsInToken, hstage]
        exact iff_of_false id fun h => h.2 (.inl hstage)
    | error e =>
        simp only [requestLineTurn, ParseRequestLineContext.EndsInToken, hstage]
        refine iff_of_false id fun h => h.2 (.inr ?_)
        simp [ParseRequestLineContext.lastError, hstage]

theorem endsInVersionOrStatus_nil : ¬EndsInVersionOrStatus [] := by
  have hlen : ∀ e ∈ httpVersions, e.1 ≠ [] := by decide
  rintro (h | ⟨e, he, u, h, -⟩)
  · exact endsInVersion_nil h
  · exact hlen e he (List.append_eq_nil_iff.1 h.symm).1

theorem statusLine_waits : statusLineMachine.Waits (fun ctx => ctx.stage = .done ∨ ctx.lastError ≠ none)
    ParseStatusLineContext.EndsInToken where
  nil ctx := by
    cases hstage : ctx.stage with
    | sp next => cases next <;> simp [ParseStatusLineContext.EndsInToken, hstage, EndsBehindSp]
    | httpSlash =>
        simp only [ParseStatusLineContext.EndsInToken, hstage]
        exact endsInSlash_nil
    | version =>
        simp only [ParseStatusLineContext.EndsInToken, hstage]
        exact endsInVersionOrStatus_nil
    | _ => simp [ParseStatusLineContext.EndsInToken, hstage, EndsInStatus]
  turn ctx ch tail := by
    have hne : ch :: tail ≠ [] := List.cons_ne_nil _ _
    change _ ↔ (statusLineTurn ctx ch tail).Waits _ _
    cases hstage : ctx.stage with
    | httpSlash =>
        simp only [statusLineTurn, ParseStatusLineContext.EndsInToken, hstage]
        rw [endsInSlash_iff hne]
        rcases parseHttpSlash (ch :: tail) with e | _ | rest
        · simp [Turn.Waits]
        · simp [Turn.Waits, hstage, ParseStatusLineContext.lastError]
        · simp [Turn.Waits, ParseStatusLineContext.EndsInToken]
    | version =>
        simp only [statusLineTurn, ParseStatusLineContext.EndsInToken, hstage]
        rw [endsInVersionOrStatus_iff hne]
        rcases parseHttpVersion (ch :: tail) with e | _ | ⟨v, rest⟩
        · simp [Turn.Waits]
        · simp [Turn.Waits, hstage, ParseStatusLineContext.lastError]
        · simp [Turn.Waits, ParseStatusLineContext.EndsInToken]
    | sp next =>
        cases next with
        | status =>
            simp only [statusLineTurn, ParseStatusLineContext.EndsInToken, hstage, endsBehindSp_cons]
            split
            · rename_i hch
              exact and_iff_right hch
            · rename_i hch
              exact iff_of_false (fun h => hch h.1) id
        | reasonStartOrCr =>
            simp only [statusLineTurn, ParseStatusLineContext.EndsInToken, hstage]
            split <;> exact iff_of_false id id
    | status =>
        simp only [statusLineTurn, ParseStatusLineContext.EndsInToken, hstage]
        rw [← parseHttpStatus_none hne]
        rcases parseHttpStatus (ch :: tail) with e | _ | ⟨status, rest⟩
        · simp [Turn.Waits]
        · simp [Turn.Waits, hstage, ParseStatusLineContext.lastError]
        · simp [Turn.Waits, ParseStatusLineContext.EndsInToken]
    | reasonStartOrCr =>
        simp only [statusLineTurn, ParseStatusLineContext.EndsInToken, hstage]
        split
        · exact iff_of_false id id
        split <;> exact iff_of_false id id
    | reason =>
        simp only [statusLineTurn, ParseStatusLineContext.EndsInToken, hstage]
        split
        · exact iff_of_false id id
        · exact iff_of_false id fun h => h.1 rfl
        · exact iff_of_false id id
    | lf =>
        simp only [statusLineTurn, ParseStatusLineContext.EndsInToken, hstage]
        split
        · exact iff_of_false id fun h => h.2 (.inl rfl)
        · exact iff_of_false id id
    | done =>
        simp only [statusLineTurn, ParseStatusLineContext.EndsInToken, hstage]
        exact iff_of_false id fun h => h.2 (.inl hstage)
    | error e =>
        simp only [statusLineTurn, ParseStatusLineContext.EndsInToken, hstage]
        refine iff_of_false id fun h => h.2 (.inr ?_)
        simp [ParseStatusLineContext.lastError, hstage]

end Rad.Http
