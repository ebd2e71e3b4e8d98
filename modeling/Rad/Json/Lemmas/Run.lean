import Rad.Json.Lemmas.Turns

/-!
# Runs of the parser

A parser that delivers after each turn what it has of a string does what the parser does. For it a text may be cut
anywhere between two turns.
-/

namespace Rad.Json

section

variable {toDouble : Bool → Bytes → Except ErrorCode UInt64}

/-! ## Delivering at once -/

/-- A turn behind which the view is delivered. -/
def Turn.flushed (t : Turn) : Turn := { t with parser := t.parser.flush t.seen, seen := [] }

/-- The item at the back of the stack takes the characters of a string. -/
def InString (p : Parser) : Prop :=
  match p.stack with
  | .string :: _ => True
  | .key false :: _ => True
  | _ => False

/-- There is a view only inside a string, outside of the escapes in it and between two code points. -/
def ViewOk (p : Parser) (seen : Bytes) : Prop := seen = [] ∨ (InString p ∧ p.esc = .none ∧ p.reader = [])

@[simp] theorem flush_nil (p : Parser) : p.flush [] = p := by simp [Parser.flush, ValueStack.pushChars]

@[simp] theorem flushed_ec (t : Turn) : t.flushed.ec = t.ec := rfl

@[simp] theorem flushed_rest (t : Turn) : t.flushed.rest = t.rest := rfl

@[simp] theorem flush_stack (p : Parser) (seen : Bytes) : (p.flush seen).stack = p.stack := rfl

@[simp] theorem flush_state (p : Parser) (seen : Bytes) : (p.flush seen).state = p.state := rfl

@[simp] theorem flush_reader (p : Parser) (seen : Bytes) : (p.flush seen).reader = p.reader := rfl

theorem parseStringWith_flush {finish : ValueStack → Bytes → ValueStack} {above : List Item} {p : Parser}
    {seen jtext : Bytes} (hfinish : ∀ (s : ValueStack) a b, finish (s.pushChars a) b = finish s (a ++ b))
    (hesc : p.esc = .none) (hreader : p.reader = []) :
    (parseStringWith finish above (p.flush seen) [] jtext).flushed = (parseStringWith finish above p seen jtext).flushed := by
  have happend : ∀ (s : ValueStack) a b, (s.pushChars a).pushChars b = s.pushChars (a ++ b) :=
    fun s a b => by simp [ValueStack.pushChars]
  simp only [parseStringWith, Parser.flush, hreader]
  split
  · simp [Turn.flushed, Parser.flush, happend]
  · simp only [stringCodepoint, hesc, ne_eq, not_true_eq_false, if_false, decide_false, Bool.false_eq_true]
    split
    · rcases eq_or_ne seen [] with rfl | hseen
      · simp [StringTurn.deliver, Turn.flushed, Parser.flush, happend]
      · simp [StringTurn.deliver, Turn.flushed, Parser.flush, happend, hseen]
    split
    · simp [StringTurn.deliver, Turn.flushed, Parser.flush, hfinish]
    · simp [StringTurn.deliver, Turn.flushed, Parser.flush, happend]

/-- A view that is delivered before the turn or behind it. -/
theorem turn_flush {p : Parser} {seen jtext : Bytes} (h : ViewOk p seen) :
    (turn toDouble (p.flush seen) [] jtext).flushed = (turn toDouble p seen jtext).flushed := by
  rcases h with rfl | ⟨hstring, hesc, hreader⟩
  · rw [flush_nil]
  · have hstack : (p.flush seen).stack = p.stack := rfl
    simp only [turn, hstack]
    cases hp : p.stack with
    | nil => simp [InString, hp] at hstring
    | cons item stack =>
        cases item with
        | string =>
            exact parseStringWith_flush (fun s a b => by simp [ValueStack.pushString, ValueStack.pushChars]) hesc hreader
        | key parsedName =>
            cases parsedName with
            | true => simp [InString, hp] at hstring
            | false =>
                exact parseStringWith_flush (fun s a b => by simp [ValueStack.pushKey, ValueStack.pushChars]) hesc hreader
        | _ => simp [InString, hp] at hstring

theorem withCodepoint_seen (p : Parser) (jtext : Bytes) (act : Parser → Nat → Act) :
    (withCodepoint p jtext act).seen = [] := by
  simp only [withCodepoint]
  split <;> rfl

theorem parseConstText_seen (desired : Bytes) (v : Value) (item : Nat → Item) (parsed : Nat) (p : Parser)
    (stack : List Item) (jtext : Bytes) : (parseConstText desired v item parsed p stack jtext).seen = [] := by
  cases jtext with
  | nil => rfl
  | cons b rest =>
      rw [parseConstText]
      split
      · rfl
      split <;> rfl

theorem stringCodepoint_goesOn {cached : Bool} {raw seen s : Bytes} {esc esc' : EscapeState} {cp : Nat}
    (h : stringCodepoint cached raw seen esc cp = (esc', .goesOn s)) : s = [] ∨ esc' = .none := by
  simp only [stringCodepoint] at h
  split at h
  · split at h
    · cases h
    · split at h <;> cases h
      exact .inl rfl
  · rename_i hesc
    split at h
    · cases h
    split at h
    · split at h <;> cases h
      exact .inl rfl
    split at h
    · cases h
    · cases h
      exact .inr (by simpa using hesc)

theorem parseStringWith_viewOk {finish : ValueStack → Bytes → ValueStack} {above : List Item} {p : Parser}
    {seen jtext : Bytes} (hstring : InString p) (hreader : ReaderOk p.reader) (hne : jtext ≠ [])
    (hec : (parseStringWith finish above p seen jtext).ec = none) :
    ViewOk (parseStringWith finish above p seen jtext).parser (parseStringWith finish above p seen jtext).seen := by
  cases hresult : (decode p.reader jtext).result with
  | error e => simp [parseStringWith, hresult] at hec
  | ok cp =>
      obtain ⟨hnil, -, -⟩ := (decode_decodesAs hreader hne).ok cp hresult
      simp only [parseStringWith, hresult] at hec ⊢
      rcases hr : stringCodepoint (p.reader ≠ []) (decode p.reader jtext).raw seen p.esc cp with ⟨esc, st⟩
      rw [hr] at hec
      cases st with
      | failed ec => cases hec
      | part s => exact .inl rfl
      | finished s => exact .inl rfl
      | goesOn s =>
          rcases stringCodepoint_goesOn hr with rfl | rfl
          · exact .inl rfl
          · exact .inr ⟨hstring, rfl, hnil⟩

theorem turn_viewOk {p : Parser} {seen jtext : Bytes} (hreader : ReaderOk p.reader) (hne : jtext ≠ [])
    (hec : (turn toDouble p seen jtext).ec = none) :
    ViewOk (turn toDouble p seen jtext).parser (turn toDouble p seen jtext).seen := by
  have hstring : ∀ stack, p.stack = .string :: stack ∨ p.stack = .key false :: stack → InString p := by
    rintro stack (h | h) <;> simp [InString, h]
  cases hstack : p.stack with
  | nil => simp [turn, hstack] at hec
  | cons item stack =>
      cases item with
      | document n =>
          simp only [turn, hstack, parseDocument] at hec ⊢
          split
          · exact .inl rfl
          split
          · exact .inl rfl
          split
          · exact .inl rfl
          split <;> exact .inl rfl
      | null parsed =>
          simp only [turn, hstack]
          exact .inl (parseConstText_seen _ _ _ _ _ _ _)
      | bool b parsed =>
          simp only [turn, hstack]
          exact .inl (parseConstText_seen _ _ _ _ _ _ _)
      | number pointPos ePos hasMinus =>
          simp only [turn, hstack]
          exact .inl (withCodepoint_seen _ _ _)
      | string =>
          simp only [turn, hstack] at hec ⊢
          exact parseStringWith_viewOk (hstring stack (.inl hstack)) hreader hne hec
      | key parsedName =>
          simp only [turn, hstack] at hec ⊢
          cases parsedName with
          | true => exact .inl (withCodepoint_seen _ _ _)
          | false => exact parseStringWith_viewOk (hstring stack (.inr hstack)) hreader hne hec
      | array n step =>
          simp only [turn, hstack]
          exact .inl (withCodepoint_seen _ _ _)
      | object n step =>
          simp only [turn, hstack]
          exact .inl (withCodepoint_seen _ _ _)

/-- A turn of the parser that delivers at once. -/
def eagerTurn (toDouble : Bool → Bytes → Except ErrorCode UInt64) (p : Parser) (jtext : Bytes) : Turn :=
  (turn toDouble p [] jtext).flushed

/-- The loop of that parser. -/
def eagerTurns (toDouble : Bool → Bytes → Except ErrorCode UInt64) (fuel : Nat) (p : Parser) (jtext : Bytes) : Turn :=
  match fuel with
  | 0 => ⟨p, [], jtext, none⟩
  | fuel + 1 =>
    if jtext = [] ∨ p.state = .done then ⟨p, [], jtext, none⟩
    else
      let t := eagerTurn toDouble p jtext
      if t.ec ≠ none then t else eagerTurns toDouble fuel t.parser t.rest

/-- The two loops are the same, but for the view. -/
theorem turns_flushed {fuel : Nat} {p : Parser} {seen jtext : Bytes} (hview : ViewOk p seen) (hreader : ReaderOk p.reader) :
    (turns toDouble fuel p seen jtext).flushed = eagerTurns toDouble fuel (p.flush seen) jtext := by
  induction fuel generalizing p seen jtext with
  | zero => rfl
  | succ fuel ih =>
      rw [turns, eagerTurns, flush_state]
      split
      · rfl
      · rename_i hgo
        have hne : jtext ≠ [] := fun h => hgo (.inl h)
        have heager : eagerTurn toDouble (p.flush seen) jtext = (turn toDouble p seen jtext).flushed := turn_flush hview
        simp only [heager, flushed_ec, flushed_rest]
        split
        · rfl
        · rename_i hec
          rw [ne_eq, Decidable.not_not] at hec
          exact ih (turn_viewOk hreader hne hec) (turn_turned hreader hne).readerOk

/-! ## Runs -/

/-- The run of the parser that delivers at once. -/
def run (toDouble : Bool → Bytes → Except ErrorCode UInt64) (p : Parser) (jtext : Bytes) : Turn :=
  eagerTurns toDouble (2 * jtext.length + 1) p jtext

theorem parseText_flushed {p : Parser} {jtext : Bytes} (hreader : ReaderOk p.reader) :
    (parseText toDouble p jtext).flushed = run toDouble p jtext := by
  have h := @turns_flushed toDouble (2 * jtext.length + 1) p [] jtext (.inl rfl) hreader
  rw [flush_nil] at h
  rw [run, ← h, parseText]
  split
  · simp [Turn.flushed]
  · rfl

theorem eagerTurn_turned {p : Parser} {jtext : Bytes} (h : ReaderOk p.reader) (hne : jtext ≠ []) :
    Turned p jtext fun jtext => eagerTurn toDouble p jtext := by
  have ht := @turn_turned toDouble p [] jtext h hne
  refine ⟨ht.lastEc, ht.state, ht.readerOk, ht.less, fun hec more => ?_, ht.ends⟩
  show (turn toDouble p [] (jtext ++ more)).flushed = _
  rw [show turn toDouble p [] (jtext ++ more) = _ from ht.shift hec more]
  rfl

/-- Enough fuel is enough. -/
theorem eagerTurns_fuel {fuel fuel' : Nat} {p : Parser} {jtext : Bytes} (hreader : ReaderOk p.reader)
    (h : turnsLeft p jtext ≤ fuel) (h' : turnsLeft p jtext ≤ fuel') :
    eagerTurns toDouble fuel p jtext = eagerTurns toDouble fuel' p jtext := by
  induction fuel generalizing fuel' p jtext with
  | zero =>
      have hnil : jtext = [] := by
        rw [turnsLeft] at h
        exact List.length_eq_zero_iff.1 (by omega)
      cases fuel' with
      | zero => rfl
      | succ fuel' =>
          rw [eagerTurns, eagerTurns, if_pos (.inl hnil)]
  | succ fuel ih =>
      rw [eagerTurns]
      split
      · rename_i hstop
        cases fuel' with
        | zero => rfl
        | succ fuel' => rw [eagerTurns, if_pos hstop]
      · rename_i hgo
        have hne : jtext ≠ [] := fun hnil => hgo (.inl hnil)
        have hpos := List.length_pos_of_ne_nil hne
        cases fuel' with
        | zero =>
            rw [turnsLeft] at h'
            omega
        | succ fuel' =>
            rw [eagerTurns, if_neg hgo]
            have ht := @eagerTurn_turned toDouble p jtext hreader hne
            dsimp only
            split
            · rfl
            · rename_i hec
              rw [ne_eq, Decidable.not_not] at hec
              rcases ht.less hec with hdone | hless
              · have hstop : ∀ fuel, eagerTurns toDouble fuel (eagerTurn toDouble p jtext).parser
                    (eagerTurn toDouble p jtext).rest =
                    ⟨(eagerTurn toDouble p jtext).parser, [], (eagerTurn toDouble p jtext).rest, none⟩ := by
                  intro fuel
                  cases fuel with
                  | zero => rfl
                  | succ fuel => rw [eagerTurns, if_pos (.inr hdone)]
                rw [hstop, hstop]
              · exact ih ht.readerOk (by omega) (by omega)

theorem turnsLeft_le (p : Parser) (jtext : Bytes) : turnsLeft p jtext ≤ 2 * jtext.length + 1 := by
  rw [turnsLeft]
  split <;> omega

section

variable {p : Parser} {jtext : Bytes}

theorem run_stop (h : jtext = [] ∨ p.state = .done) : run toDouble p jtext = ⟨p, [], jtext, none⟩ := by
  rw [run, eagerTurns, if_pos h]

@[simp] theorem run_nil : run toDouble p [] = ⟨p, [], [], none⟩ := run_stop (.inl rfl)

theorem run_fails (hne : jtext ≠ []) (hstate : p.state ≠ .done) (hec : (eagerTurn toDouble p jtext).ec ≠ none) :
    run toDouble p jtext = eagerTurn toDouble p jtext := by
  rw [run, eagerTurns, if_neg (not_or.2 ⟨hne, hstate⟩)]
  exact if_pos hec

theorem run_next (hreader : ReaderOk p.reader) (hne : jtext ≠ []) (hstate : p.state ≠ .done)
    (hec : (eagerTurn toDouble p jtext).ec = none) :
    run toDouble p jtext = run toDouble (eagerTurn toDouble p jtext).parser (eagerTurn toDouble p jtext).rest := by
  have ht := @eagerTurn_turned toDouble p jtext hreader hne
  have hfuel : run toDouble p jtext =
      eagerTurns toDouble (2 * jtext.length) (eagerTurn toDouble p jtext).parser (eagerTurn toDouble p jtext).rest := by
    rw [run, eagerTurns, if_neg (not_or.2 ⟨hne, hstate⟩)]
    exact if_neg (by simpa using hec)
  rw [hfuel]
  rcases ht.less hec with hdone | hless
  · have hpos := List.length_pos_of_ne_nil hne
    rw [run_stop (.inr hdone), show 2 * jtext.length = 2 * jtext.length - 1 + 1 by omega, eagerTurns, if_pos (.inr hdone)]
  · have := turnsLeft_le p jtext
    exact eagerTurns_fuel ht.readerOk (by omega) (turnsLeft_le _ _)

/-- What holds in a run: the reader is in order, and a run that ends without an error has read the whole text or the
document. -/
theorem run_ends (hreader : ReaderOk p.reader) (hlastEc : p.lastEc = none) :
    ReaderOk (run toDouble p jtext).parser.reader ∧ (run toDouble p jtext).parser.lastEc = none ∧
    ((run toDouble p jtext).ec = none → (run toDouble p jtext).rest = [] ∨ (run toDouble p jtext).parser.state = .done) ∧
    ((run toDouble p jtext).parser.state = p.state ∨ (run toDouble p jtext).parser.state = .done) := by
  induction hn : turnsLeft p jtext using Nat.strongRecOn generalizing p jtext with
  | ind n ih =>
      by_cases hstop : jtext = [] ∨ p.state = .done
      · rw [run_stop hstop]
        exact ⟨hreader, hlastEc, fun _ => hstop, .inl rfl⟩
      · obtain ⟨hne, hstate⟩ := not_or.1 hstop
        have ht := @eagerTurn_turned toDouble p jtext hreader hne
        by_cases hec : (eagerTurn toDouble p jtext).ec = none
        · rw [run_next hreader hne hstate hec]
          by_cases hdone : (eagerTurn toDouble p jtext).parser.state = .done
          · rw [run_stop (.inr hdone)]
            exact ⟨ht.readerOk, ht.lastEc.trans hlastEc, fun _ => .inr hdone, .inr hdone⟩
          · obtain ⟨hok, hec', hends, hstate'⟩ := ih _ (hn ▸ (ht.less hec).resolve_left hdone) ht.readerOk
              (ht.lastEc.trans hlastEc) rfl
            exact ⟨hok, hec', hends, hstate'.imp_left fun h => h.trans (ht.state.resolve_right hdone)⟩
        · rw [run_fails hne hstate hec]
          exact ⟨ht.readerOk, ht.lastEc.trans hlastEc, fun h => absurd h hec, ht.state⟩

/-- A text may be cut where a run of its beginning ends. -/
theorem run_append (hreader : ReaderOk p.reader) (hec : (run toDouble p jtext).ec = none) (more : Bytes) :
    run toDouble p (jtext ++ more) = run toDouble (run toDouble p jtext).parser ((run toDouble p jtext).rest ++ more) := by
  induction hn : turnsLeft p jtext using Nat.strongRecOn generalizing p jtext with
  | ind n ih =>
      by_cases hstop : jtext = [] ∨ p.state = .done
      · rw [run_stop hstop]
      · obtain ⟨hne, hstate⟩ := not_or.1 hstop
        have ht := @eagerTurn_turned toDouble p jtext hreader hne
        by_cases hturn : (eagerTurn toDouble p jtext).ec = none
        · have hshift : eagerTurn toDouble p (jtext ++ more) = _ := ht.shift hturn more
          have hmore : run toDouble p (jtext ++ more) =
              run toDouble (eagerTurn toDouble p jtext).parser ((eagerTurn toDouble p jtext).rest ++ more) := by
            rw [run_next hreader (by simp [hne]) hstate (by rw [hshift]; exact hturn), hshift]
          rw [run_next hreader hne hstate hturn] at hec
          rw [hmore, run_next hreader hne hstate hturn]
          rcases ht.less hturn with hdone | hless
          · rw [run_stop (.inr hdone), run_stop (.inr hdone)]
            exact (run_stop (.inr hdone)).symm
          · exact ih _ (hn ▸ hless) ht.readerOk hec rfl
        · rw [run_fails hne hstate hturn] at hec
          exact absurd hec hturn

/-- A run that ends with an error does so in a turn at the end of it, before which holds what the other turns keep. -/
theorem run_error {P : Parser → Prop} (hP : P p)
    (hkeep : ∀ q jtext, P q → ReaderOk q.reader → jtext ≠ [] → q.state ≠ .done → (eagerTurn toDouble q jtext).ec = none →
      (eagerTurn toDouble q jtext).parser.state = .done ∨ P (eagerTurn toDouble q jtext).parser)
    (hreader : ReaderOk p.reader) (hec : (run toDouble p jtext).ec ≠ none) :
    ∃ q rest, P q ∧ ReaderOk q.reader ∧ rest ≠ [] ∧ q.state = p.state ∧ (eagerTurn toDouble q rest).ec ≠ none ∧
      run toDouble p jtext = eagerTurn toDouble q rest ∧
      ∀ more, run toDouble p (jtext ++ more) = run toDouble q (rest ++ more) := by
  induction hn : turnsLeft p jtext using Nat.strongRecOn generalizing p jtext with
  | ind n ih =>
      by_cases hstop : jtext = [] ∨ p.state = .done
      · rw [run_stop hstop] at hec
        exact absurd rfl hec
      · obtain ⟨hne, hstate⟩ := not_or.1 hstop
        have ht := @eagerTurn_turned toDouble p jtext hreader hne
        by_cases hturn : (eagerTurn toDouble p jtext).ec = none
        · have hshift : ∀ more, eagerTurn toDouble p (jtext ++ more) = _ := ht.shift hturn
          rw [run_next hreader hne hstate hturn] at hec
          have hdone : (eagerTurn toDouble p jtext).parser.state ≠ .done := fun hdone => by
            rw [run_stop (.inr hdone)] at hec
            exact hec rfl
          have hsame := ht.state.resolve_right hdone
          have hless := (ht.less hturn).resolve_left hdone
          obtain ⟨q, rest, hq, hqreader, hrest, hqstate, hqec, hrun, hmore⟩ := ih _ (hn ▸ hless)
            ((hkeep p jtext hP hreader hne hstate hturn).resolve_left hdone) ht.readerOk hec rfl
          refine ⟨q, rest, hq, hqreader, hrest, hqstate.trans hsame, hqec, ?_, fun more => ?_⟩
          · rw [run_next hreader hne hstate hturn, hrun]
          · rw [run_next hreader (by simp [hne]) hstate (by rw [hshift]; exact hturn), hshift]
            exact hmore more
        · exact ⟨p, jtext, hP, hreader, hne, rfl, hturn, run_fails hne hstate hturn, fun _ => rfl⟩

end

end

/-! ## What a run comes to

The result of `json::parse` is what the parser at the end of its run gives.
-/

variable {toDouble : Bool → Bytes → Except ErrorCode UInt64}

/-- `parse_text` delivers at the end what the run delivers at once. -/
theorem parseText_eq_run {p : Parser} {t : Bytes} (hreader : ReaderOk p.reader) (hec : (run toDouble p t).ec = none) :
    parseText toDouble p t = run toDouble p t := by
  have hflushed := @parseText_flushed toDouble p t hreader
  have hnone : (parseText toDouble p t).ec = none := by rw [← flushed_ec, hflushed, hec]
  have hsame : (parseText toDouble p t).flushed = parseText toDouble p t := by
    revert hnone
    rw [parseText]
    split
    · simp [Turn.flushed]
    · exact fun hnone => absurd hnone ‹_›
  rw [← hflushed, hsame]

theorem finish_done {p : Parser} (hlastEc : p.lastEc = none) (hstate : p.state = .done) :
    p.finish toDouble = (p, none) := by
  rw [Parser.finish, hlastEc]
  exact if_pos hstate

/-- Behind a run without an error there may be white space only. -/
theorem parse_eq {t : Bytes} (hec : (run toDouble ({} : Parser).start t).ec = none) :
    parse toDouble t =
      if (run toDouble ({} : Parser).start t).rest.dropWhile (fun b => isWhiteSpace b.toNat) = [] then
        (run toDouble ({} : Parser).start t).parser.outcome toDouble
      else .error .extraData := by
  obtain ⟨-, hlastEc, hends, -⟩ := @run_ends toDouble ({} : Parser).start t readerOk_nil rfl
  replace hends := hends hec
  have htext := parseText_eq_run readerOk_nil hec
  have hstart : ({} : Parser).start.stack ≠ [] := nofun
  have hnil : t = [] → (run toDouble ({} : Parser).start t).rest = [] := by rintro rfl; rw [run_nil]
  rw [parse, Parser.writeSome]
  simp only [reduceCtorEq, if_false, hstart, htext, hec]
  generalize run toDouble ({} : Parser).start t = r at *
  by_cases hdone : r.parser.state = .done
  · by_cases hwhite : r.rest.dropWhile (fun b => isWhiteSpace b.toNat) = []
    · simp [hdone, hwhite, Parser.outcome, finish_done hlastEc hdone]
    · have hlen : t.length - (r.rest.dropWhile fun b => isWhiteSpace b.toNat).length ≠ t.length := by
        have hpos := List.length_pos_of_ne_nil hwhite
        have ht : t ≠ [] := fun ht => hwhite (by rw [hnil ht]; rfl)
        have := List.length_pos_of_ne_nil ht
        omega
      simp [hdone, hwhite, hlen]
  · have hrest : r.rest = [] := hends.resolve_right hdone
    cases hf : r.parser.finish toDouble with
    | mk p ec => cases ec <;> simp [hdone, hrest, Parser.outcome, hf]

/-- An error of the run is an error of `json::parse`. -/
theorem parse_error {t : Bytes} (hec : (run toDouble ({} : Parser).start t).ec ≠ none) :
    ∃ e, parse toDouble t = .error e := by
  have hflushed := @parseText_flushed toDouble ({} : Parser).start t readerOk_nil
  have hsome : (parseText toDouble ({} : Parser).start t).ec ≠ none := by rwa [← flushed_ec, hflushed]
  have hstart : ({} : Parser).start.stack ≠ [] := nofun
  obtain ⟨e, he⟩ := Option.ne_none_iff_exists'.1 hsome
  rw [parse, Parser.writeSome]
  simp only [reduceCtorEq, if_false, hstart, he]
  generalize (_ && _ && _ : Bool) = waits
  cases waits with
  | true => exact ⟨.incomplete, by simp⟩
  | false => exact ⟨e, by simp⟩

end Rad.Json
