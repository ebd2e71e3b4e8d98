import Mathlib.Data.List.TakeWhile
import Rad.Json.Lemmas.Run
import Rad.Json.Lemmas.Scan

/-!
# Feeding a parser in chunks

What a parser gives for the rest of a text, before a chunk and behind it.
-/

namespace Rad.Json

variable {toDouble : Bool → Bytes → Except ErrorCode UInt64}

/-! ## Waiting for the rest of a character

A chunk that ends inside the bytes of a character leaves them in the reader. The view is lost then, so nothing is lost
exactly when there is none.
-/

/-- Between strings a parser does not wait. -/
theorem withCodepoint_reader {p : Parser} {jtext : Bytes} {act : Parser → Nat → Act} (hreader : ReaderOk p.reader)
    (hne : jtext ≠ []) (hkeeps : ∀ q cp, Keeps q (act q cp)) {e : Errc}
    (hec : (withCodepoint p jtext act).ec = some (.errc e)) : (withCodepoint p jtext act).parser.reader = [] := by
  have hd := decode_decodesAs hreader hne
  cases hresult : (decode p.reader jtext).result with
  | error e' => simp [withCodepoint, hresult] at hec
  | ok cp =>
      simp only [withCodepoint, hresult, (hkeeps _ cp).reader]
      exact (hd.ok cp hresult).1

theorem Between.reader_of_errc {p : Parser} {jtext : Bytes} (h : Between p) (hne : jtext ≠ []) {e : Errc}
    (hec : (turn toDouble p [] jtext).ec = some (.errc e)) : (turn toDouble p [] jtext).parser.reader = [] := by
  have hreader : ReaderOk p.reader := .inl h.reader
  have hconst : ∀ desired v item parsed stack, (parseConstText desired v item parsed p stack jtext).parser.reader = [] := by
    intro desired v item parsed stack
    rw [parseConstText.eq_def]
    split
    · exact h.reader
    split
    · exact h.reader
    split <;> exact h.reader
  cases hstack : p.stack with
  | nil => simp [turn, hstack] at hec
  | cons item stack =>
      cases item with
      | document n =>
          simp only [turn, hstack, parseDocument] at hec ⊢
          split
          · exact h.reader
          split
          · exact h.reader
          split
          · exact h.reader
          split
          · rename_i htry
            rw [(tryParseValue_keeps htry).1]
            exact h.reader
          · exact h.reader
      | null parsed =>
          simp only [turn, hstack]
          exact hconst _ _ _ _ _
      | bool b parsed =>
          simp only [turn, hstack]
          exact hconst _ _ _ _ _
      | number pointPos ePos hasMinus =>
          simp only [turn, hstack] at hec ⊢
          exact withCodepoint_reader hreader hne (numberCodepoint_keeps pointPos ePos hasMinus stack) hec
      | string => exact absurd (by simp [InString, hstack]) h.notString
      | key parsedName =>
          cases parsedName with
          | false => exact absurd (by simp [InString, hstack]) h.notString
          | true =>
              simp only [turn, hstack] at hec ⊢
              exact withCodepoint_reader hreader hne (colonCodepoint_keeps stack) hec
      | array n step =>
          simp only [turn, hstack] at hec ⊢
          exact withCodepoint_reader hreader hne (arrayCodepoint_keeps n step stack) hec
      | object n step =>
          simp only [turn, hstack] at hec ⊢
          exact withCodepoint_reader hreader hne (objectCodepoint_keeps n step stack) hec

/-- The turn ends in the middle of a character, whose bytes are in the reader. -/
structure Waits (t : Turn) : Prop where
  ec : t.ec = some (.errc .noBufferSpace)
  rest : t.rest = []
  reader : t.parser.reader ≠ []

section

variable {p : Parser} {seen jtext : Bytes} {s : Lex}

/-- A turn that waits is one within a string, and does nothing else. -/
theorem turn_waits (h : LexOk p seen s) (hne : jtext ≠ []) (hwaits : Waits (turn toDouble p seen jtext)) :
    Within p ∧ (decode p.reader jtext).result = .error .noBufferSpace ∧ ReaderOk (p.reader ++ jtext) ∧
      (turn toDouble p seen jtext).seen = seen ∧
      (turn toDouble p seen jtext).parser = { p with reader := p.reader ++ jtext } := by
  have hwithin : Within p := by
    cases h with
    | outside h hseen =>
        subst hseen
        exact absurd (h.reader_of_errc hne hwaits.ec) hwaits.reader
    | within h => exact h
    | carried h => exact h
    | stuck h => exact h
  have hd := decode_decodesAs hwithin.readerOk hne
  obtain ⟨finish, above, -, hturn⟩ := @Within.turn_eq toDouble p hwithin
  rw [hturn p rfl] at hwaits ⊢
  cases hresult : (decode p.reader jtext).result with
  | error e =>
      have hec := hwaits.ec
      simp only [parseStringWith, hresult, Option.some.injEq, ErrorCode.errc.injEq] at hec
      subst hec
      obtain ⟨hreader, -⟩ := hd.waits hresult
      have hok := hd.readerOk
      rw [hreader] at hok
      refine ⟨hwithin, rfl, hok, ?_, ?_⟩
      · simp only [parseStringWith, hresult]
      · simp only [parseStringWith, hresult, hreader]
  | ok cp =>
      have hreader := hwaits.reader
      simp only [parseStringWith, hresult, (hd.ok cp hresult).1] at hreader
      generalize stringCodepoint _ _ _ _ _ = r at hreader
      obtain ⟨esc, st⟩ := r
      cases st <;> exact absurd rfl hreader

/-! ## The end of a chunk and the scanner -/

/-- Inside the bytes of a character the scanner tells whether there is a view, and when there is none it goes on with the
rest of the bytes. -/
theorem LexOk.wait (h : LexOk p seen s) (hwithin : Within p) (hne : jtext ≠ []) (hreader : ReaderOk (p.reader ++ jtext)) :
    ((s.scan jtext).behindPlain = false → seen = []) ∧
    (seen = [] → LexOk { p with reader := p.reader ++ jtext } [] (s.scan jtext).cut) := by
  have hsome : p.reader ++ jtext ≠ [] := by simp [hne]
  have hbegun : Utf8Begun (p.reader ++ jtext) := hreader.resolve_left hsome
  have hwithin' : Within { p with reader := p.reader ++ jtext } := ⟨hwithin.stackOk, hwithin.inString, hreader⟩
  cases h with
  | outside h => exact absurd hwithin.inString h.notString
  | within h hnil hseen =>
      by_cases hesc : p.esc = .none
      · rw [hnil, List.nil_append] at hbegun
        obtain ⟨missing, hscan, hmissing⟩ := scan_begun hne hbegun (decide (seen ≠ []))
        have hcarried : LexOk _ [] _ := .carried hwithin' hesc hsome rfl
        have hlex : lexOf p.esc (seen ≠ []) = .text (seen ≠ []) := by rw [hesc]; rfl
        rw [hlex, hscan]
        refine ⟨fun hplain => by simpa [Lex.behindPlain] using hplain, fun _ => ?_⟩
        rw [Lex.cut, hmissing]
        simpa only [hnil, List.nil_append] using hcarried
      · exact ⟨fun _ => hseen.resolve_right hesc, fun _ => .stuck hwithin' hesc hsome rfl _⟩
  | carried h hesc hcached hseen =>
      refine ⟨fun _ => hseen, fun _ => ?_⟩
      have hcarried : LexOk _ [] _ := .carried hwithin' hesc hsome rfl
      obtain ⟨b, cs, hreader'⟩ := List.exists_cons_of_ne_nil hcached
      have hlen := hbegun.1
      rw [hreader', List.cons_append, List.headD_cons, List.length_cons, List.length_append] at hlen
      rw [hreader', List.headD_cons, List.length_cons, scan_carried (by omega), Nat.sub_sub]
      simpa only [Lex.cut, hreader', List.cons_append, List.headD_cons, List.length_cons, List.length_append,
        Nat.add_right_comm] using hcarried
  | stuck h hesc hcached hseen => exact ⟨fun _ => hseen, fun _ => .stuck hwithin' hesc hsome rfl _⟩

/-- The view is delivered at the end of a chunk. -/
theorem LexOk.flush (h : LexOk p seen s) : LexOk (p.flush seen) [] s.cut := by
  cases h with
  | outside h hseen =>
      subst hseen
      rw [flush_nil]
      exact .outside h rfl
  | within h hnil hseen =>
      have hwithin : Within (p.flush seen) := ⟨h.stackOk, h.inString, h.readerOk⟩
      have hlex : LexOk _ [] _ := .within hwithin hnil (.inl rfl)
      have hcut : (lexOf p.esc (seen ≠ [])).cut = lexOf p.esc false := by cases p.esc <;> rfl
      rw [hcut]
      exact hlex
  | carried h hesc hreader hseen =>
      subst hseen
      rw [flush_nil]
      exact .carried h hesc hreader rfl
  | stuck h hesc hreader hseen =>
      subst hseen
      rw [flush_nil]
      exact .stuck h hesc hreader rfl _

theorem turns_done {fuel : Nat} (h : p.state = .done) : turns toDouble fuel p seen jtext = ⟨p, seen, jtext, none⟩ := by
  cases fuel with
  | zero => rfl
  | succ fuel => rw [turns, if_pos (.inr h)]

/-- The loops on a chunk: the scanner goes on with the parser, to the end or to the bytes that wait. -/
theorem turns_lex {fuel : Nat} (h : LexOk p seen s) (hstate : p.state ≠ .done) :
    ((turns toDouble fuel p seen jtext).ec = none →
      ∃ used, jtext = used ++ (turns toDouble fuel p seen jtext).rest ∧
        (((turns toDouble fuel p seen jtext).parser.state = .done ∧ s.scan used = .outside) ∨
          ((turns toDouble fuel p seen jtext).parser.state ≠ .done ∧
            LexOk (turns toDouble fuel p seen jtext).parser (turns toDouble fuel p seen jtext).seen (s.scan used)))) ∧
    (Waits (turns toDouble fuel p seen jtext) →
      ((s.scan jtext).behindPlain = false → (turns toDouble fuel p seen jtext).seen = []) ∧
      ((turns toDouble fuel p seen jtext).seen = [] →
        LexOk (turns toDouble fuel p seen jtext).parser [] (s.scan jtext).cut)) := by
  induction fuel generalizing p seen jtext s with
  | zero => exact ⟨fun _ => ⟨[], rfl, .inr ⟨hstate, h⟩⟩, fun hwaits => by cases hwaits.ec⟩
  | succ fuel ih =>
      rw [turns]
      by_cases hstop : jtext = [] ∨ p.state = .done
      · rw [if_pos hstop]
        exact ⟨fun _ => ⟨[], rfl, .inr ⟨hstate, h⟩⟩, fun hwaits => by cases hwaits.ec⟩
      rw [if_neg hstop]
      have hne : jtext ≠ [] := fun hnil => hstop (.inl hnil)
      by_cases hec : (turn toDouble p seen jtext).ec = none
      · simp only [hec, ne_eq, not_true_eq_false, if_false]
        obtain ⟨used, htext, hnil, hlex⟩ := turn_lex h hne hec
        have hturned := @turn_turned toDouble p seen jtext h.readerOk hne
        by_cases hdone : (turn toDouble p seen jtext).parser.state = .done
        · have hrest := (hturned.ends hdone).resolve_left hstate
          rw [turns_done hdone]
          refine ⟨fun _ => ⟨[], hrest.symm, .inl ⟨hdone, ?_⟩⟩, fun hwaits => by cases hwaits.ec⟩
          rw [hrest] at htext
          exact hnil (List.self_eq_append_left.1 htext)
        · obtain ⟨hends, hwaits⟩ := @ih _ _ (turn toDouble p seen jtext).rest _ (hlex.resolve_left hdone) hdone
          rw [← scan_append, ← htext] at hwaits
          refine ⟨fun hnone => ?_, hwaits⟩
          obtain ⟨used', htext', hlex'⟩ := hends hnone
          refine ⟨used ++ used', ?_, by rwa [scan_append]⟩
          rw [List.append_assoc, ← htext', ← htext]
      · dsimp only
        rw [if_pos hec]
        refine ⟨fun hnone => absurd hnone hec, fun hwaits => ?_⟩
        obtain ⟨hwithin, -, hreader, hseen, hparser⟩ := turn_waits h hne hwaits
        rw [hseen, hparser]
        exact h.wait hwithin hne hreader

end

/-! ## The result -/

/-- What a parser gives when `t` is the rest of the text; the error is not looked at. -/
def Parser.result (toDouble : Bool → Bytes → Except ErrorCode UInt64) (p : Parser) (t : Bytes) : Except ErrorCode Value :=
  if (run toDouble p t).ec ≠ none then .error .incomplete
  else if (run toDouble p t).rest.dropWhile (fun b => isWhiteSpace b.toNat) = [] then
    (run toDouble p t).parser.outcome toDouble
  else .error .extraData

section

variable {p : Parser} {t more : Bytes} {v : Value}

theorem result_error (h : (run toDouble p t).ec ≠ none) : p.result toDouble t = .error .incomplete := if_pos h

theorem result_eq_of_run {q : Parser} {u : Bytes} (h : run toDouble p t = run toDouble q u) :
    p.result toDouble t = q.result toDouble u := by
  rw [Parser.result, Parser.result, h]

theorem result_nil (p : Parser) : p.result toDouble [] = p.outcome toDouble := by
  rw [Parser.result, run_nil]
  rfl

theorem result_of_none (h : (run toDouble p t).ec = none) :
    p.result toDouble t =
      if (run toDouble p t).rest.dropWhile (fun b => isWhiteSpace b.toNat) = [] then
        (run toDouble p t).parser.outcome toDouble
      else .error .extraData := if_neg (not_not.2 h)

theorem parse_ok_iff : parse toDouble t = .ok v ↔ ({} : Parser).start.result toDouble t = .ok v := by
  by_cases hec : (run toDouble ({} : Parser).start t).ec = none
  · rw [parse_eq hec, result_of_none hec]
  · obtain ⟨e, he⟩ := parse_error hec
    rw [result_error hec, he]
    exact iff_of_false nofun nofun

theorem result_ne_extraData (h : parse toDouble t ≠ .error .extraData) :
    ({} : Parser).start.result toDouble t ≠ .error .extraData := by
  by_cases hec : (run toDouble ({} : Parser).start t).ec = none
  · rwa [result_of_none hec, ← parse_eq hec]
  · rw [result_error hec]
    nofun

/-! ## A chunk that is read -/

theorem dropWhile_append_eq_nil {q : UInt8 → Bool} {a b : Bytes} :
    (a ++ b).dropWhile q = [] ↔ a.dropWhile q = [] ∧ b.dropWhile q = [] := by
  simp only [List.dropWhile_eq_nil_iff, List.mem_append]
  exact ⟨fun h => ⟨fun x hx => h x (.inl hx), fun x hx => h x (.inr hx)⟩, fun h x hx => hx.elim (h.1 x) (h.2 x)⟩

/-- Behind a chunk that is read without an error the parser gives what it gives for the whole. -/
theorem result_append (hreader : ReaderOk p.reader) (hlastEc : p.lastEc = none) (hec : (run toDouble p t).ec = none)
    (hextra : p.result toDouble (t ++ more) ≠ .error .extraData) :
    p.result toDouble (t ++ more) = (run toDouble p t).parser.result toDouble more := by
  have hrun := run_append hreader hec more
  rcases (run_ends hreader hlastEc).2.2.1 hec with hrest | hdone
  · rw [hrest, List.nil_append] at hrun
    exact result_eq_of_run hrun
  · have hresult : ∀ u, (run toDouble p t).parser.result toDouble u =
        if u.dropWhile (fun b => isWhiteSpace b.toNat) = [] then (run toDouble p t).parser.outcome toDouble
        else .error .extraData := by
      intro u
      have hstop := @run_stop toDouble _ u (.inr hdone)
      rw [result_of_none (by rw [hstop]), hstop]
    rw [result_eq_of_run hrun, hresult] at hextra ⊢
    rw [hresult]
    by_cases hwhite : ((run toDouble p t).rest ++ more).dropWhile (fun b => isWhiteSpace b.toNat) = []
    · rw [if_pos hwhite, if_pos (dropWhile_append_eq_nil.1 hwhite).2]
    · exact absurd (if_neg hwhite) hextra

/-! ## A chunk that ends inside a character -/

/-- The bytes of a character may be cut: the rest of them is read as the whole would be. -/
theorem eagerTurn_resume {q : Parser} {rest : Bytes} (h : Within q) (hrest : rest ≠ [])
    (hok : ReaderOk (q.reader ++ rest)) (hmore : more ≠ []) :
    eagerTurn toDouble q (rest ++ more) = eagerTurn toDouble { q with reader := q.reader ++ rest } more ∨
      ((eagerTurn toDouble q (rest ++ more)).ec ≠ none ∧
        (eagerTurn toDouble { q with reader := q.reader ++ rest } more).ec ≠ none) := by
  obtain ⟨finish, above, -, hturn⟩ := @Within.turn_eq toDouble q h
  have hd := @decode_decodesAs q.reader (rest ++ more) h.readerOk (by simp [hrest])
  have hd' := @decode_decodesAs (q.reader ++ rest) more hok hmore
  have htext : q.reader ++ (rest ++ more) = q.reader ++ rest ++ more := (List.append_assoc ..).symm
  have hsame := hd.result_eq hd' htext
  simp only [eagerTurn, hturn q rfl, hturn { q with reader := q.reader ++ rest } rfl]
  cases hresult : (decode q.reader (rest ++ more)).result with
  | error e =>
      rw [hresult] at hsame
      refine .inr ⟨?_, ?_⟩
      · simp [parseStringWith, hresult]
      · simp [parseStringWith, ← hsame]
  | ok cp =>
      obtain ⟨hreader, hdecode, hraw⟩ := hd.ok cp hresult
      have heq := hd.eq_of_ok hd' htext hresult
      rw [hresult] at hsame
      have hsome : q.reader ++ rest ≠ [] := by simp [hrest]
      -- more than one byte
      have hhigh : ¬cp < 0x80 := by
        intro hlow
        obtain ⟨b, -, hone, -⟩ := utf8Decode_low hdecode hlow
        obtain ⟨used, hused, htext', -⟩ := hd'.exists_used hok hsame.symm
        rw [htext, heq] at hone
        have hlen := congrArg List.length hone
        have hlen' := congrArg List.length htext'
        rw [List.length_append, List.length_cons] at hlen
        rw [List.length_append] at hlen'
        have := List.length_pos_of_ne_nil hsome
        have := List.length_pos_of_ne_nil hused
        omega
      have hsolidus : cp ≠ 0x5c := by omega
      have hquote : cp ≠ 0x22 := by omega
      refine .inl ?_
      rw [heq] at hreader hresult
      simp only [parseStringWith, heq, hresult, hreader]
      generalize (decode (q.reader ++ rest) more).raw = raw
      by_cases hesc : q.esc = .none
      · by_cases hcached : q.reader = []
        · simp [stringCodepoint, hesc, hcached, hrest, hsolidus, hquote, StringTurn.deliver, Turn.flushed, Parser.flush,
            ValueStack.pushChars]
        · simp [stringCodepoint, hesc, hcached]
      · simp [stringCodepoint, hesc]

/-- What the eager turns keep. -/
theorem eagerTurn_lex (h : ∃ s, LexOk p [] s) (hne : t ≠ []) (hec : (eagerTurn toDouble p t).ec = none) :
    (eagerTurn toDouble p t).parser.state = .done ∨ ∃ s, LexOk (eagerTurn toDouble p t).parser [] s := by
  obtain ⟨s, h⟩ := h
  obtain ⟨_, -, -, hlex⟩ := turn_lex h hne hec
  exact hlex.imp_right fun hlex => ⟨_, hlex.flush⟩

/-- The turn with which a run ends that makes an error. -/
theorem run_error_lex {s : Lex} (h : LexOk p [] s) (hec : (run toDouble p t).ec ≠ none) :
    ∃ q rest s', LexOk q [] s' ∧ rest ≠ [] ∧ q.state = p.state ∧ (turn toDouble q [] rest).ec ≠ none ∧
      run toDouble p t = (turn toDouble q [] rest).flushed ∧
      ∀ more, run toDouble p (t ++ more) = run toDouble q (rest ++ more) := by
  obtain ⟨q, rest, ⟨s', hlex⟩, -, hrest, hstate, hturn, hrun, hmore⟩ := @run_error toDouble p t
    (fun q => ∃ s, LexOk q [] s) ⟨s, h⟩ (fun q jtext hq _ hne _ hec => eagerTurn_lex hq hne hec) h.readerOk hec
  exact ⟨q, rest, s', hlex, hrest, hstate, hturn, hrun, hmore⟩

theorem waits_flushed {u : Turn} : Waits u.flushed ↔ Waits u := ⟨fun h => ⟨h.1, h.2, h.3⟩, fun h => ⟨h.1, h.2, h.3⟩⟩

theorem finish_incomplete {q : Parser} (hlastEc : q.lastEc = none) (hstate : q.state ≠ .done) (hreader : q.reader ≠ []) :
    q.outcome toDouble = .error .incomplete := by
  simp [Parser.outcome, Parser.finish, hlastEc, hstate, hreader]

theorem run_of_eagerTurn_eq {q q' : Parser} {u : Bytes} (hq : ReaderOk q.reader) (hq' : ReaderOk q'.reader) (ht : t ≠ [])
    (hu : u ≠ []) (hstate : q.state ≠ .done) (hstate' : q'.state ≠ .done)
    (h : eagerTurn toDouble q t = eagerTurn toDouble q' u) : run toDouble q t = run toDouble q' u := by
  by_cases hec : (eagerTurn toDouble q t).ec = none
  · rw [run_next hq ht hstate hec, h]
    rw [h] at hec
    rw [run_next hq' hu hstate' hec]
  · rw [run_fails ht hstate hec, h]
    rw [h] at hec
    rw [run_fails hu hstate' hec]

/-- A chunk that leaves the beginning of a character in the reader. -/
theorem run_waits {s : Lex} (h : LexOk p [] s) (hwaits : Waits (run toDouble p t)) :
    ∃ q rest, Within q ∧ rest ≠ [] ∧ ReaderOk (q.reader ++ rest) ∧ q.state = p.state ∧
      (run toDouble p t).parser = { q with reader := q.reader ++ rest } ∧
      ∀ more, run toDouble p (t ++ more) = run toDouble q (rest ++ more) := by
  obtain ⟨q, rest, s', hlex, hrest, hqstate, hturn, hrun, hmore⟩ := run_error_lex h (by rw [hwaits.ec]; nofun)
  rw [hrun, waits_flushed] at hwaits
  obtain ⟨hwithin, -, hok, hseen, hparser⟩ := turn_waits hlex hrest hwaits
  refine ⟨q, rest, hwithin, hrest, hok, hqstate, ?_, hmore⟩
  rw [hrun, Turn.flushed, hseen, flush_nil, hparser]

theorem result_waits {s : Lex} (h : LexOk p [] s) (hstate : p.state = .parsing) (hlastEc : p.lastEc = none)
    (hwaits : Waits (run toDouble p t)) : p.result toDouble (t ++ more) = (run toDouble p t).parser.result toDouble more := by
  have hlastEc' := (@run_ends toDouble p t h.readerOk hlastEc).2.1
  obtain ⟨q, rest, hwithin, hrest, hok, hqstate, hnext, hmore⟩ := run_waits h hwaits
  have hqdone : q.state ≠ .done := by simp [hqstate, hstate]
  rcases eq_or_ne more [] with rfl | hne
  · have hdone : (run toDouble p t).parser.state ≠ .done := by rwa [hnext]
    rw [List.append_nil, result_error (by rw [hwaits.ec]; nofun), result_nil,
      finish_incomplete hlastEc' hdone hwaits.reader]
  · have hlong : rest ++ more ≠ [] := by simp [hrest]
    rw [hnext, result_eq_of_run (hmore more)]
    rcases @eagerTurn_resume toDouble more q rest hwithin hrest hok hne with heq | ⟨hfails, hfails'⟩
    · exact result_eq_of_run (run_of_eagerTurn_eq hwithin.readerOk hok hlong hne hqdone hqdone heq)
    · have hrun' := @run_fails toDouble { q with reader := q.reader ++ rest } more hne hqdone hfails'
      rw [result_error (by rwa [run_fails hlong hqdone hfails]), result_error (by rwa [hrun'])]

/-! ## A chunk with an error -/

/-- A byte that is no ASCII character is an error between two strings, or extra data. -/
theorem Between.result_high {q : Parser} {b : UInt8} (h : Between q) (hb : ¬b < 0x80) (rest : Bytes) :
    q.result toDouble (b :: rest) ≠ .ok v := by
  have hreader : ReaderOk q.reader := .inl h.reader
  have hwhite : isWhiteSpace b.toNat = false := by
    rw [Bool.eq_false_iff]
    intro hwhite
    exact hb (UInt8.lt_iff_toNat_lt.2 (isWhiteSpace_low hwhite).1)
  have hextra : ∀ p : Parser, p.state = .done → p.result toDouble (b :: rest) ≠ .ok v := by
    intro p hdone
    have hstop := @run_stop toDouble p (b :: rest) (.inr hdone)
    rw [result_of_none (by rw [hstop]), hstop, if_neg (by simp [hwhite])]
    simp
  -- a number may be over, and what is below it takes the byte then
  induction hn : turnsLeft q (b :: rest) using Nat.strongRecOn generalizing q with
  | ind n ih =>
      by_cases hdone : q.state = .done
      · exact hextra q hdone
      by_cases hec : (turn toDouble q [] (b :: rest)).ec = none
      · have ht := @eagerTurn_turned toDouble q (b :: rest) hreader (by simp)
        have hrun := run_next hreader (List.cons_ne_nil b rest) hdone hec
        obtain ⟨hseen, ⟨hrest, hnext⟩ | ⟨b', hascii, htext, -⟩⟩ := h.turn_leads (by simp) hec
        · have heager : (eagerTurn toDouble q (b :: rest)).parser = (turn toDouble q [] (b :: rest)).parser := by
            rw [eagerTurn, Turn.flushed, hseen, flush_nil]
          have hrest' : (eagerTurn toDouble q (b :: rest)).rest = b :: rest := hrest
          rw [hrest'] at hrun
          rw [result_eq_of_run hrun, heager]
          rcases hnext with hdone' | hbetween
          · exact hextra _ hdone'
          · by_cases hdone' : (turn toDouble q [] (b :: rest)).parser.state = .done
            · exact hextra _ hdone'
            · have hless := (ht.less hec).resolve_left (by rwa [heager])
              rw [heager, hrest', hn] at hless
              exact ih _ hless hbetween (.inl hbetween.reader) rfl
        · obtain ⟨rfl, -⟩ := List.cons.inj htext
          exact absurd hascii hb
      · rw [result_error (by rwa [run_fails (by simp) hdone hec])]
        simp

/-- What is behind an ASCII character does not matter between two strings. -/
theorem Between.turn_ascii {q : Parser} {b : UInt8} (h : Between q) (hb : b < 0x80) (rest rest' : Bytes) :
    (turn toDouble q [] (b :: rest)).ec = (turn toDouble q [] (b :: rest')).ec := by
  have hcodepoint : ∀ act, (withCodepoint q (b :: rest) act).ec = (withCodepoint q (b :: rest') act).ec := fun act => by
    rw [withCodepoint_ascii h.reader hb, withCodepoint_ascii h.reader hb]
  have hconst : ∀ desired v item parsed stack, (parseConstText desired v item parsed q stack (b :: rest)).ec =
      (parseConstText desired v item parsed q stack (b :: rest')).ec := fun desired v item parsed stack => by
    rw [parseConstText, parseConstText]
    split
    · rfl
    split <;> rfl
  cases hstack : q.stack with
  | nil => simp [turn, hstack]
  | cons item stack =>
      cases item with
      | document n =>
          simp only [turn, hstack, parseDocument, utf8Decode_ascii hb]
          split
          · rfl
          split
          · rfl
          split <;> rfl
      | null parsed =>
          simp only [turn, hstack]
          exact hconst _ _ _ _ _
      | bool c parsed =>
          simp only [turn, hstack]
          exact hconst _ _ _ _ _
      | number pointPos ePos hasMinus =>
          simp only [turn, hstack]
          exact hcodepoint _
      | string => exact absurd (by simp [InString, hstack]) h.notString
      | key parsedName =>
          cases parsedName with
          | false => exact absurd (by simp [InString, hstack]) h.notString
          | true =>
              simp only [turn, hstack]
              exact hcodepoint _
      | array n step =>
          simp only [turn, hstack]
          exact hcodepoint _
      | object n step =>
          simp only [turn, hstack]
          exact hcodepoint _

/-- An error within a string stays one, whatever comes behind. -/
theorem Within.turn_fails {q : Parser} {rest : Bytes} (h : Within q) (hrest : rest ≠ [])
    (hec : (turn toDouble q [] rest).ec ≠ none) (hwaits : ¬Waits (turn toDouble q [] rest)) (more : Bytes) :
    (turn toDouble q [] (rest ++ more)).ec ≠ none := by
  obtain ⟨finish, above, -, hturn⟩ := @Within.turn_eq toDouble q h
  rw [hturn q rfl] at hec hwaits ⊢
  have hd := decode_decodesAs h.readerOk hrest
  cases hresult : (decode q.reader rest).result with
  | error e =>
      cases e with
      | noBufferSpace =>
          obtain ⟨hreader, hnil⟩ := hd.waits hresult
          refine absurd ⟨?_, ?_, ?_⟩ hwaits
          · simp only [parseStringWith, hresult]
          · simp only [parseStringWith, hresult, hnil]
          · simp [parseStringWith, hresult, hreader, hrest]
      | illegalByteSequence =>
          simp only [parseStringWith, decode_append_illegal h.readerOk hrest hresult more]
          simp
  | ok cp =>
      simp only [parseStringWith, hresult] at hec
      simp only [parseStringWith, decode_append_ok h.readerOk hrest hresult more, hresult]
      generalize stringCodepoint _ _ _ _ _ = r at hec
      obtain ⟨esc, st⟩ := r
      cases st with
      | failed ec => (intro h; cases h)
      | part s => exact absurd rfl hec
      | finished s => exact absurd rfl hec
      | goesOn s => exact absurd rfl hec

/-- Behind an error that is no waiting no text makes the parser succeed. -/
theorem result_fails {s : Lex} (h : LexOk p [] s) (hstate : p.state = .parsing) (hec : (run toDouble p t).ec ≠ none)
    (hwaits : ¬Waits (run toDouble p t)) (more : Bytes) : p.result toDouble (t ++ more) ≠ .ok v := by
  obtain ⟨q, rest, s', hlex, hrest, hqstate, hturn, hrun, hmore⟩ := run_error_lex h hec
  rw [hrun, waits_flushed] at hwaits
  rw [result_eq_of_run (hmore more)]
  have hqdone : q.state ≠ .done := by simp [hqstate, hstate]
  have hfails : (turn toDouble q [] (rest ++ more)).ec ≠ none → q.result toDouble (rest ++ more) ≠ .ok v := by
    intro hec'
    rw [result_error (by rwa [run_fails (by simp [hrest]) hqdone hec'])]
    nofun
  have hwithin : Within q → q.result toDouble (rest ++ more) ≠ .ok v :=
    fun hwithin => hfails (hwithin.turn_fails hrest hturn hwaits more)
  cases hlex with
  | outside hbetween =>
      obtain ⟨b, rest, rfl⟩ := List.exists_cons_of_ne_nil hrest
      rw [List.cons_append] at hfails ⊢
      by_cases hb : b < 0x80
      · exact hfails (by rwa [hbetween.turn_ascii hb (rest ++ more) rest])
      · exact hbetween.result_high hb _
  | within h => exact hwithin h
  | carried h => exact hwithin h
  | stuck h => exact hwithin h

end

end Rad.Json
