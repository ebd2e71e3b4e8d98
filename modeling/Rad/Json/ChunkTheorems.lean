import Rad.Json.Lemmas.Chunks

/-!
# Parsing in chunks

A `stream_parser` that is fed a text in chunks gives what `json::parse` gives for the text, as long as no chunk ends inside
the bytes of a character with other characters of the string before it.
-/

namespace Rad.Json

variable {toDouble : Bool → Bytes → Except ErrorCode UInt64}

/-! ## One call -/

section

variable {p : Parser} {c : Bytes} {s : Lex}

theorem start_of_parsing (hstate : p.state = .parsing) : p.start = p := by rw [Parser.start, if_neg (by simp [hstate])]

theorem writeSome_parsing (hlastEc : p.lastEc = none) (hstate : p.state = .parsing) (hstack : p.stack ≠ [])
    (h : (parseText toDouble p c).ec = none ∨ Waits (parseText toDouble p c)) :
    (p.writeSome toDouble true c).1 = (parseText toDouble p c).parser := by
  have hstart := start_of_parsing hstate
  rw [Parser.writeSome]
  simp only [hlastEc, hstate, reduceCtorEq, if_false, hstart, hstack]
  rcases h with hnone | hwaits
  · simp [hnone]
  · simp [hwaits.ec, hwaits.rest, hwaits.reader]

theorem writeSome_fails (hlastEc : p.lastEc = none) (hstate : p.state = .parsing) (hstack : p.stack ≠ [])
    (hec : (parseText toDouble p c).ec ≠ none) (hwaits : ¬Waits (parseText toDouble p c)) :
    (p.writeSome toDouble true c).1.lastEc ≠ none := by
  have hstart := start_of_parsing hstate
  obtain ⟨e, he⟩ := Option.ne_none_iff_exists'.1 hec
  rw [Parser.writeSome]
  simp only [hlastEc, hstate, reduceCtorEq, if_false, hstart, hstack, he]
  generalize hw : (_ && _ && _ : Bool) = waits
  cases waits with
  | true =>
      simp only [Bool.and_eq_true, decide_eq_true_eq] at hw
      exact absurd ⟨he.trans hw.1.2, hw.1.1, hw.2⟩ hwaits
  | false => (intro h; cases h)

theorem writeSome_failed (h : p.lastEc ≠ none) : (p.writeSome toDouble true c).1 = p := by
  obtain ⟨e, he⟩ := Option.ne_none_iff_exists'.1 h
  rw [Parser.writeSome]
  simp only [he]

theorem writeSome_done (hlastEc : p.lastEc = none) (h : p.state = .done) : (p.writeSome toDouble true c).1 = p := by
  rw [Parser.writeSome]
  simp only [hlastEc, h, if_true]

/-- What a chunk leaves behind, where the scanner is and what the parser has of a view. -/
theorem parseText_lex (h : LexOk p [] s) (hstate : p.state ≠ .done) :
    ((parseText toDouble p c).ec = none →
      ∃ used, c = used ++ (parseText toDouble p c).rest ∧
        (((parseText toDouble p c).parser.state = .done ∧ s.scan used = .outside) ∨
          ((parseText toDouble p c).parser.state ≠ .done ∧ LexOk (parseText toDouble p c).parser [] (s.scan used).cut))) ∧
    (Waits (parseText toDouble p c) →
      ((s.scan c).behindPlain = false → (parseText toDouble p c).seen = []) ∧
      ((parseText toDouble p c).seen = [] → LexOk (parseText toDouble p c).parser [] (s.scan c).cut)) := by
  obtain ⟨hends, hwaits⟩ := @turns_lex toDouble p [] c s (2 * c.length + 1) h hstate
  rw [parseText]
  split
  · rename_i hnone
    obtain ⟨used, htext, hlex⟩ := hends hnone
    refine ⟨fun _ => ⟨used, htext, hlex.imp_right fun hlex => ⟨hlex.1, hlex.2.flush⟩⟩, fun hw => ?_⟩
    have hec := hw.ec
    rw [hnone] at hec
    cases hec
  · rename_i hsome
    exact ⟨fun hnone => absurd hnone hsome, hwaits⟩

end

/-! ## All of the calls -/

section

variable (toDouble)

/-- Behind a chunk that is not the last one the parser has failed or is done, or the chunk does not end inside the bytes of
a character with other characters of the string before it since the last quotation mark or escape. -/
def CutsKeep (p : Parser) (s : Lex) : List Bytes → Prop
  | [] => True
  | [_] => True
  | c :: c' :: chunks =>
    let q := (p.writeSome toDouble true c).1
    q.lastEc ≠ none ∨ q.state = .done ∨ (s.scan c).behindPlain = false ∧ CutsKeep q (s.scan c).cut (c' :: chunks)

instance decidableCutsKeep (p : Parser) (s : Lex) : (chunks : List Bytes) → Decidable (CutsKeep toDouble p s chunks)
  | [] => .isTrue trivial
  | [_] => .isTrue trivial
  | c :: c' :: chunks =>
    have := decidableCutsKeep (p.writeSome toDouble true c).1 (s.scan c).cut (c' :: chunks)
    inferInstanceAs (Decidable (_ ∨ _ ∨ (s.scan c).behindPlain = false ∧
      CutsKeep toDouble (p.writeSome toDouble true c).1 (s.scan c).cut (c' :: chunks)))

variable {toDouble}

variable {p : Parser} {c c' : Bytes} {chunks : List Bytes} {s : Lex} {v : Value}

theorem CutsKeep.of_parsing (h : CutsKeep toDouble p s (c :: c' :: chunks)) {q : Parser}
    (hq : (p.writeSome toDouble true c).1 = q) (hlastEc : q.lastEc = none) (hdone : q.state ≠ .done) :
    (s.scan c).behindPlain = false ∧ CutsKeep toDouble q (s.scan c).cut (c' :: chunks) := by
  subst hq
  exact (h.resolve_left (not_not.2 hlastEc)).resolve_left hdone

/-- The calls of `write_some`, one for each chunk. -/
def Parser.fed (toDouble : Bool → Bytes → Except ErrorCode UInt64) (p : Parser) (chunks : List Bytes) : Parser :=
  chunks.foldl (fun p c => (p.writeSome toDouble true c).1) p

theorem fed_failed (h : p.lastEc ≠ none) : p.fed toDouble chunks = p := by
  induction chunks with
  | nil => rfl
  | cons c chunks ih => rw [Parser.fed, List.foldl_cons, writeSome_failed h, ← Parser.fed, ih]

theorem fed_done (hlastEc : p.lastEc = none) (h : p.state = .done) : p.fed toDouble chunks = p := by
  induction chunks with
  | nil => rfl
  | cons c chunks ih => rw [Parser.fed, List.foldl_cons, writeSome_done hlastEc h, ← Parser.fed, ih]

theorem outcome_failed (h : p.lastEc ≠ none) : p.outcome toDouble ≠ .ok v := by
  obtain ⟨e, he⟩ := Option.ne_none_iff_exists'.1 h
  rw [Parser.outcome, Parser.finish]
  simp only [he]
  simp

theorem result_done (h : p.state = .done) {t : Bytes} (hextra : p.result toDouble t ≠ .error .extraData) :
    p.result toDouble t = p.outcome toDouble := by
  have hstop := @run_stop toDouble p t (.inr h)
  rw [result_of_none (by rw [hstop]), hstop] at hextra ⊢
  by_cases hwhite : t.dropWhile (fun b => isWhiteSpace b.toNat) = []
  · exact if_pos hwhite
  · exact absurd (if_neg hwhite) hextra

/-- A parser in the middle of a text gives for the rest what it gives for its chunks. -/
theorem fed_result (h : LexOk p [] s) (hlastEc : p.lastEc = none) (hstate : p.state = .parsing)
    (hcuts : CutsKeep toDouble p s chunks)
    (hextra : p.result toDouble chunks.flatten ≠ .error .extraData) :
    p.result toDouble chunks.flatten = .ok v ↔ (p.fed toDouble chunks).outcome toDouble = .ok v := by
  -- one chunk after the other: the scanner tells where the parser is behind each of them
  induction chunks generalizing p s with
  | nil =>
      rw [List.flatten_nil, result_nil]
      rfl
  | cons c chunks ih =>
      have hstack := h.stackOk.ne_nil
      have hstart : p.state ≠ .done := by rw [hstate]; nofun
      have hflushed := @parseText_flushed toDouble p c h.readerOk
      have hwaits_iff : Waits (parseText toDouble p c) ↔ Waits (run toDouble p c) := by rw [← hflushed, waits_flushed]
      obtain ⟨-, hlastEc', hends, hstate'⟩ := @run_ends toDouble p c h.readerOk hlastEc
      rw [hstate] at hstate'
      rw [List.flatten_cons] at hextra ⊢
      rw [Parser.fed, List.foldl_cons, ← Parser.fed]
      by_cases hec : (run toDouble p c).ec = none
      · have htext := parseText_eq_run h.readerOk hec
        have hresult := result_append h.readerOk hlastEc hec hextra
        rw [hresult] at hextra ⊢
        have hwrite : (p.writeSome toDouble true c).1 = (run toDouble p c).parser := by
          rw [writeSome_parsing hlastEc hstate hstack (.inl (htext ▸ hec)), htext]
        rw [hwrite]
        by_cases hdone : (run toDouble p c).parser.state = .done
        · rw [fed_done hlastEc' hdone, result_done hdone hextra]
        · have hlex := (@parseText_lex toDouble p c s h hstart).1 (htext ▸ hec)
          rw [htext] at hlex
          obtain ⟨used, hused, hlex⟩ := hlex
          replace hlex := (hlex.resolve_left fun hdone' => hdone hdone'.1).2
          rw [(hends hec).resolve_right hdone, List.append_nil] at hused
          subst hused
          refine ih hlex hlastEc' (hstate'.resolve_right hdone) ?_ hextra
          cases chunks with
          | nil => trivial
          | cons c' chunks => exact (hcuts.of_parsing hwrite hlastEc' hdone).2
      by_cases hwaits : Waits (run toDouble p c)
      · have hwaits' := hwaits_iff.2 hwaits
        have hwrite := writeSome_parsing hlastEc hstate hstack (.inr hwaits')
        rw [hwrite]
        obtain ⟨hseen, hlex⟩ := (@parseText_lex toDouble p c s h hstart).2 hwaits'
        obtain ⟨q, rest, -, -, -, hqstate, hnext, -⟩ := run_waits h hwaits
        have hstate'' : (run toDouble p c).parser.state = .parsing := by
          rw [hnext]
          exact hqstate.trans hstate
        have hsame : (run toDouble p c).parser = (parseText toDouble p c).parser.flush (parseText toDouble p c).seen := by
          rw [← hflushed]
          rfl
        have hdone : (parseText toDouble p c).parser.state ≠ .done := fun hdone => by
          rw [hsame, flush_state, hdone] at hstate''
          cases hstate''
        have hnone : (parseText toDouble p c).parser.lastEc = none := by
          rw [hsame] at hlastEc'
          exact hlastEc'
        cases chunks with
        | nil =>
            -- the text ends inside the character
            rw [List.flatten_nil, List.append_nil, result_error hec, Parser.fed, List.foldl_nil,
              finish_incomplete hnone hdone hwaits'.reader]
        | cons c' chunks =>
            obtain ⟨hplain, hcuts'⟩ := hcuts.of_parsing hwrite hnone hdone
            have hnil := hseen hplain
            have htext : (parseText toDouble p c).parser = (run toDouble p c).parser := by
              rw [← hflushed, Turn.flushed, hnil, flush_nil]
            replace hlex := hlex hnil
            rw [htext] at hlex hcuts' ⊢
            rw [result_waits h hstate hlastEc hwaits] at hextra ⊢
            exact ih hlex hlastEc' hstate'' hcuts' hextra
      · refine iff_of_false (result_fails h hstate hec hwaits _) ?_
        have hec' : (parseText toDouble p c).ec ≠ none := by rwa [← flushed_ec, hflushed]
        have hfails := writeSome_fails hlastEc hstate hstack hec' (mt hwaits_iff.1 hwaits)
        rw [fed_failed hfails]
        exact outcome_failed hfails

end

/-! ## Independence of the chunks -/

theorem lexOk_start : LexOk ({} : Parser).start [] .outside :=
  .outside (.nested (.document 0) rfl rfl) rfl

theorem cutsKeep_start {s : Lex} {chunks : List Bytes} (h : CutsKeep toDouble {} s chunks) :
    CutsKeep toDouble ({} : Parser).start s chunks := by
  cases chunks with
  | nil => trivial
  | cons c chunks =>
      cases chunks with
      | nil => trivial
      | cons c' chunks => exact h

theorem streamParse_eq (chunks : List Bytes) :
    streamParse toDouble chunks = (({} : Parser).start.fed toDouble chunks).outcome toDouble := by
  cases chunks with
  | nil => rfl
  | cons c chunks => rfl

/-- A text that is fed in chunks is parsed to the value that it is parsed to as a whole. -/
theorem parse_in_chunks {chunks : List Bytes} (hextra : parse toDouble chunks.flatten ≠ .error .extraData)
    (hcuts : CutsKeep toDouble {} .outside chunks) (v : Value) :
    parse toDouble chunks.flatten = .ok v ↔ streamParse toDouble chunks = .ok v := by
  rw [parse_ok_iff, streamParse_eq]
  exact fed_result lexOk_start rfl rfl (cutsKeep_start hcuts) (result_ne_extraData hextra)

/-- Cut inside an escape, inside a character behind it, and inside a literal. -/
theorem parse_in_chunks_escape :
    streamParse (fun _ _ => .error .numberTooLarge)
      [ascii "[\"\\u00", ascii "e9" ++ [0xc3], 0xa9 :: ascii "\", tr", ascii "ue]"] =
        .ok (.array [.string [0xc3, 0xa9, 0xc3, 0xa9], .bool true]) := by
  have hparse : parse (fun _ _ => .error .numberTooLarge)
      [ascii "[\"\\u00", ascii "e9" ++ [0xc3], 0xa9 :: ascii "\", tr", ascii "ue]"].flatten =
        .ok (.array [.string [0xc3, 0xa9, 0xc3, 0xa9], .bool true]) := rfl
  exact (parse_in_chunks (by rw [hparse]; nofun) (by decide) _).1 hparse

/-- Of `"aé"`, cut inside the second character, only that one is left. -/
theorem cut_character_loses_text :
    ¬(∀ toDouble (chunks : List Bytes), parse toDouble chunks.flatten ≠ .error .extraData →
      ∀ v, parse toDouble chunks.flatten = .ok v → ∃ w, streamParse toDouble chunks = .ok w ∧ Value.equal w v = true) := by
  intro h
  have hparse : parse (fun _ _ => .error .numberTooLarge) [[0x22, 0x61, 0xc3], [0xa9, 0x22]].flatten =
      .ok (.string [0x61, 0xc3, 0xa9]) := rfl
  have hstream : streamParse (fun _ _ => .error .numberTooLarge) [[0x22, 0x61, 0xc3], [0xa9, 0x22]] =
      .ok (.string [0xc3, 0xa9]) := rfl
  obtain ⟨w, hw, hequal⟩ := h _ _ (by rw [hparse]; nofun) _ hparse
  rw [hstream] at hw
  obtain rfl := Except.ok.inj hw
  simp [Value.equal] at hequal

end Rad.Json
