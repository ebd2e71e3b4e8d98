import Rad.Json.Lemmas.SaxLoop

/-!
# The rule of calls

What is said of a parser is kept by a call when it is kept by the turns of its loop, by what is done at the end of a text
and by `finish`.
-/

namespace Rad.Json.Sax

section

variable {σ : Type} {h : Handler σ} {toDouble : Bool → Bytes → Except ErrorCode UInt64} {K : Turn σ → Prop}
  {p q : Parser σ} {item : Item} {stack : List Item} {jtext seen rest : Bytes} {ec : Option Error} {cp n : Nat}
  {a : Action} {out : List (Option Error)}

/-- What is said of the turns of a call can be said of its end as well. -/
structure Law (h : Handler σ) (K : Turn σ → Prop) : Prop where
  does {p q : Parser σ} {item : Item} {stack : List Item} {ec : Option Error} {seen : Bytes}
    (hp : K ⟨p, seen, [], none⟩)
    (hlastEc : p.lastEc = none) (hstack : p.stack = item :: stack) (hdoes : Does h False False p item stack q ec) :
    K ⟨q, [], [], ec⟩
  error {p : Parser σ} {seen : Bytes} {ec : Option Error} (e : Error) (hp : K ⟨p, seen, [], ec⟩)
    (hec : ec = none ∨ ec = some (.json (.errc .noBufferSpace))) : K ⟨p, [], [], some e⟩
  waits {p : Parser σ} {seen : Bytes} (hp : K ⟨p, seen, [], some (.json (.errc .noBufferSpace))⟩) : K ⟨p, [], [], none⟩
  failWith {p : Parser σ} {seen rest : Bytes} {e : Error} (hp : K ⟨p, seen, rest, some e⟩) :
    K ⟨p.failWith e, [], [], some e⟩
  ended {p : Parser σ} {seen rest : Bytes} (hp : K ⟨p, seen, rest, none⟩)
    (hover : rest = [] ∨ p.state ≠ .parsing ∨ p.broken = true) : K ⟨p, [], [], none⟩
  done {p : Parser σ} (hp : K ⟨p, [], [], none⟩) (hlastEc : p.lastEc = none) (hstack : p.stack = []) :
    K ⟨{ p with state := .done }, [], [], none⟩

theorem endDocument_lastEc (p : Parser σ) (stack : List Item) : (endDocument h p stack).1.lastEc = p.lastEc := by
  cases ha : (h.on p.handler .documentEnd).2.ok with
  | true => simp [endDocument, Parser.call, ha]
  | false => simp [endDocument, Parser.call, ha]

/-- `finish`, but for a number that is the root. -/
theorem finish_law (hlaw : Law h K) (hp : K ⟨p, [], [], p.lastEc⟩)
    (hroot : ∀ pointPos ePos hasMinus item, RootNumber h toDouble p pointPos ePos hasMinus item →
      K ⟨(p.finish h toDouble).1, [], [], (p.finish h toDouble).2⟩) :
    K ⟨(p.finish h toDouble).1, [], [], (p.finish h toDouble).2⟩ := by
  cases hlastEc : p.lastEc with
  | some ec =>
      simp only [Parser.finish, hlastEc, Option.isSome_some, if_true]
      exact hlastEc ▸ hp
  | none =>
  rw [hlastEc] at hp
  by_cases hdone : p.state = .done
  · simp only [Parser.finish, hlastEc, hdone, Option.isSome_none, Bool.false_eq_true, if_false, if_true]
    exact hp
  have hincomplete : K ⟨p.failWith (.json .incomplete), [], [], some (.json .incomplete)⟩ :=
    hlaw.failWith (hlaw.error (.json .incomplete) hp (.inl rfl))
  by_cases hreader : p.reader = []
  swap
  · simpa [Parser.finish, hlastEc, hdone, hreader] using hincomplete
  by_cases hnumber : ∃ pointPos ePos hasMinus item, RootNumber h toDouble p pointPos ePos hasMinus item
  · obtain ⟨pointPos, ePos, hasMinus, item, hopen⟩ := hnumber
    exact hroot _ _ _ _ hopen
  simp only [Parser.finish, hlastEc, hdone, hreader, Option.isSome_none, Bool.false_eq_true, if_false, ne_eq,
    not_true_eq_false]
  split
  next n hstack =>
    split
    next => exact hincomplete
    next =>
    have hdoes : Does h False False p (.document n) [] (endDocument h p []).1 (endDocument h p []).2 :=
      endDocument_does trivial
    have hend := hlaw.does hp hlastEc hstack hdoes
    have hempty : (endDocument h p []).1.stack = [] := by
      cases ha : (h.on p.handler .documentEnd).2.ok with
      | true => simp [endDocument, Parser.call, ha]
      | false => simp [endDocument, Parser.call, ha]
    split
    next ec hec => exact hlaw.failWith (hec ▸ hend)
    next hec => exact hlaw.done (hec ▸ hend) ((endDocument_lastEc p []).trans hlastEc) hempty
  next pointPos ePos hasMinus item hstack =>
    split
    next hdigit =>
      have hdoes : Does h False False p (.number pointPos ePos hasMinus) [item] _ _ :=
        validateAndReportNumber_does toDouble p [item] pointPos ePos hasMinus fun h => h
      have hends := hlaw.does hp hlastEc hstack hdoes
      split
      next q ec hq =>
        rw [hq] at hends
        exact hlaw.failWith hends
      next q hq =>
        have hopen : RootNumber h toDouble p pointPos ePos hasMinus item := by
          refine ⟨hlastEc, hdone, hreader, hstack, fun _ => ?_⟩
          unfold validateAndReportNumber at hq
          split at hq
          next => cases hq
          next v hv => exact ⟨v, hv, congrArg Prod.snd hq⟩
        exact absurd ⟨_, _, _, _, hopen⟩ hnumber
    next hdigit =>
      have hopen : RootNumber h toDouble p pointPos ePos hasMinus item :=
        ⟨hlastEc, hdone, hreader, hstack, fun hyes => absurd hyes hdigit⟩
      exact absurd ⟨_, _, _, _, hopen⟩ hnumber
  next => exact hincomplete

theorem RootNumber.finish {pointPos ePos : Nat} {hasMinus : Bool}
    (hroot : RootNumber h toDouble p pointPos ePos hasMinus item) :
    p.finish h toDouble =
      if endsInDigit p.numberText then
        ({ (validateAndReportNumber h toDouble p pointPos ePos hasMinus [item]).1 with stack := [], broken := true },
          none)
      else ({ p with state := .done }, none) := by
  obtain ⟨hlastEc, hstate, hreader, hstack, hnumber⟩ := hroot
  simp only [Parser.finish, hlastEc, hstate, hreader, hstack, Option.isSome_none, Bool.false_eq_true, if_false, ne_eq,
    not_true_eq_false]
  split
  next hdigit =>
    obtain ⟨v, hv, hec⟩ := hnumber hdigit
    simp only [validateAndReportNumber, hv, Parser.call, hec]
  next => rfl

theorem turn_lastEc (hreader : ReaderOk p.reader) (hne : jtext ≠ []) (seen : Bytes) :
    (turn h toDouble p seen jtext).parser.lastEc = p.lastEc := by
  cases hp : p.stack with
  | nil => simp [turn, hp]
  | cons item stack =>
      have hdoes := turn_does h toDouble seen hp hreader hne
      exact hdoes.lastEc

theorem flush_lastEc (p : Parser σ) (seen : Bytes) : (flush h p seen).1.lastEc = p.lastEc := by
  cases hp : p.stack with
  | nil => simp only [flush, hp]; split <;> rfl
  | cons item stack =>
      have hdoes : Does h False False p item stack (flush h p seen).1 (flush h p seen).2 := flush_does hp
      exact hdoes.lastEc

theorem flush_reader (p : Parser σ) (seen : Bytes) : (flush h p seen).1.reader = p.reader := by
  simp only [flush, Parser.call]
  repeat' split
  all_goals first | rfl | exact deliverPart_reader _ _ _ _ _

theorem finish_reader (p : Parser σ) : (p.finish h toDouble).1.reader = p.reader := by
  unfold Parser.finish
  dsimp only
  split
  next => rfl
  next =>
  split
  next => rfl
  next =>
  split
  next => rfl
  next =>
  split
  next n hstack =>
    have hend := endDocument_reader (h := h) p []
    split
    next => rfl
    next => split <;> exact hend
  next pointPos ePos hasMinus item hstack =>
    have hnumber := validateAndReportNumber_reader h toDouble p pointPos ePos hasMinus [item]
    split
    next =>
      split
      next hq => rw [hq] at hnumber; exact hnumber
      next hq => rw [hq] at hnumber; exact hnumber
    next => rfl
  next => rfl

variable (h toDouble) in
theorem validateAndReportNumber_lastEc (p : Parser σ) (pointPos ePos : Nat) (hasMinus : Bool) (stack : List Item) :
    (validateAndReportNumber h toDouble p pointPos ePos hasMinus stack).1.lastEc = p.lastEc := by
  unfold validateAndReportNumber
  split <;> rfl

variable (h toDouble) in
/-- The error that `finish` gives is kept. -/
theorem finish_lastEc (p : Parser σ) : (p.finish h toDouble).1.lastEc = (p.finish h toDouble).2 := by
  unfold Parser.finish
  dsimp only
  split
  next => rfl
  next hnone =>
  have hlastEc : p.lastEc = none := by simpa using hnone
  split
  next => exact hlastEc
  next =>
  split
  next => rfl
  next =>
  split
  next n hstack =>
    split
    next => rfl
    next =>
    split
    next => rfl
    next => exact (endDocument_lastEc p []).trans hlastEc
  next pointPos ePos hasMinus item hstack =>
    have hnumber := validateAndReportNumber_lastEc h toDouble p pointPos ePos hasMinus [item]
    split
    next =>
      split
      next => rfl
      next hq => rw [hq] at hnumber; exact hnumber.trans hlastEc
    next => exact hlastEc
  next => rfl

theorem flush_law (hlaw : Law h K) (hp : K ⟨p, seen, [], none⟩) (hlastEc : p.lastEc = none) :
    K ⟨(flush h p seen).1, [], [], (flush h p seen).2⟩ := by
  cases hstack : p.stack with
  | nil =>
      have hsame : flush h p seen = (p, none) := by
        simp only [flush, hstack]
        split <;> rfl
      rw [hsame]
      exact hlaw.ended hp (.inl rfl)
  | cons item stack => exact hlaw.does hp hlastEc hstack (flush_does hstack)

/-- What holds of every turn of the loop of `write_some` holds when it is over. -/
theorem parseText_law (hlaw : Law h K) (hreader : ReaderOk p.reader) (hlastEc : p.lastEc = none)
    (hp : K ⟨p, [], jtext, none⟩)
    (hturn : ∀ t, Lib.Visits (pass h toDouble) ⟨p, [], jtext, none⟩ t → ¬t.Stops → ReaderOk t.parser.reader →
      t.parser.lastEc = none → K t → K (turn h toDouble t.parser t.seen t.rest)) :
    K (parseText h toDouble p jtext) ∧ (parseText h toDouble p jtext).parser.lastEc = none ∧
      ReaderOk (parseText h toDouble p jtext).parser.reader ∧
      ((parseText h toDouble p jtext).rest = [] ∨ (parseText h toDouble p jtext).Stops) := by
  obtain ⟨t, hvisits, hstops, hlast⟩ := exists_last h toDouble hreader jtext
  have hreader' := readerOk_of_visits hvisits hreader
  have hinv : t.parser.lastEc = none ∧ K t := by
    refine hvisits.preserves (I := fun t => t.parser.lastEc = none ∧ K t) (fun u v hu hK hpass => ?_) ⟨hlastEc, hp⟩
    have hu'' := readerOk_of_visits hu hreader
    by_cases hu' : u.Stops
    · rw [pass_stops hu'] at hpass
      cases hpass
    · rw [pass_goes hu'] at hpass
      cases hpass
      exact ⟨(turn_lastEc hu'' (fun hnil => hu' (.inl hnil)) _).trans hK.1, hturn u hu hu' hu'' hK.1 hK.2⟩
  obtain ⟨hlastEc', hK⟩ := hinv
  rw [hlast]
  split
  next hends =>
    obtain ⟨q, seen, rest, ec⟩ := t
    obtain ⟨hec, hrest⟩ := hends
    dsimp only at hec hrest hK
    subst hec hrest
    have hflushed : ReaderOk (flush h q seen).1.reader := by rw [flush_reader]; exact hreader'
    exact ⟨flush_law hlaw hK hlastEc', (flush_lastEc _ _).trans hlastEc', hflushed, .inl rfl⟩
  next => exact ⟨hK, hlastEc', hreader', .inr hstops⟩

variable (toDouble) in
/-- What `write_some` does behind its loop. -/
theorem afterText_law (more : Bool) (data : Bytes) {t : Turn σ} (hlaw : Law h K) (hK : K t)
    (hlastEc : t.parser.lastEc = none)
    (hreader : ReaderOk t.parser.reader) (hends : t.rest = [] ∨ t.Stops)
    (hroot : more = false → t.ec = none → ∀ pointPos ePos hasMinus item,
      RootNumber h toDouble t.parser pointPos ePos hasMinus item → K ⟨t.parser, [], [], none⟩ →
        K ⟨(t.parser.finish h toDouble).1, [], [], (t.parser.finish h toDouble).2⟩) :
    K ⟨(afterText h toDouble more data t).1, [], [], (afterText h toDouble more data t).2.2⟩ ∧
      (afterText h toDouble more data t).1.lastEc = (afterText h toDouble more data t).2.2 ∧
      ReaderOk (afterText h toDouble more data t).1.reader := by
  obtain ⟨p, seen, rest, ec⟩ := t
  dsimp only at hlastEc hreader hroot
  simp only [afterText]
  by_cases hwaits : rest = [] ∧ ec = some (.json (.errc .noBufferSpace)) ∧ p.reader ≠ []
  · obtain ⟨rfl, rfl, hcached⟩ := hwaits
    cases more with
    | true =>
        simp only [hcached, decide_true, Bool.and_true, Bool.not_true, Bool.false_eq_true, false_and, and_false,
          if_true,
          if_false, ne_eq, not_false_eq_true]
        exact ⟨hlaw.waits hK, hlastEc, hreader⟩
    | false =>
        simp only [hcached, decide_true, Bool.and_true, reduceCtorEq, Bool.false_eq_true, false_and, if_true,
          if_false, ne_eq,
          not_false_eq_true]
        exact ⟨hlaw.failWith (hlaw.error _ hK (.inr rfl)), rfl, hreader⟩
  have hno : (decide (rest = []) && decide (ec = some (.json (.errc .noBufferSpace))) && decide (p.reader ≠ [])) =
      false := by
    simpa [and_assoc] using hwaits
  rw [hno]
  simp only [Bool.false_eq_true, if_false]
  cases ec with
  | some ec =>
      simp only [reduceCtorEq, false_and, if_false]
      exact ⟨hlaw.failWith hK, rfl, hreader⟩
  | none =>
  have hover : rest = [] ∨ p.state ≠ .parsing ∨ p.broken = true := by
    rcases hends with hnil | hnil | hstate | hec | hbroken
    · exact .inl hnil
    · exact .inl hnil
    · exact .inr (.inl hstate)
    · exact absurd rfl hec
    · exact .inr (.inr hbroken)
  have hp : K ⟨p, [], [], none⟩ := hlaw.ended hK hover
  by_cases hfinish : (none : Option Error) = none ∧ (!more) = true ∧ p.state = .parsing
  · rw [if_pos hfinish]
    have hK' : K ⟨(p.finish h toDouble).1, [], [], (p.finish h toDouble).2⟩ :=
      finish_law hlaw (hlastEc ▸ hp) fun _ _ _ _ hnumber =>
        hroot (by simpa using hfinish.2.1) rfl _ _ _ _ hnumber hp
    have hlastEc' := finish_lastEc h toDouble p
    have hreader' : ReaderOk (p.finish h toDouble).1.reader := by rw [finish_reader]; exact hreader
    generalize p.finish h toDouble = r at hK' hlastEc' hreader'
    obtain ⟨q, ec⟩ := r
    cases ec with
    | some ec => exact ⟨hlaw.failWith hK', rfl, hreader'⟩
    | none => exact ⟨hK', hlastEc', hreader'⟩
  · rw [if_neg hfinish]
    exact ⟨hp, hlastEc, hreader⟩

/-- What a parser that is not started comes to, by what the handler says of it. -/
def Parser.begun (p : Parser σ) : Parser σ :=
  { (p.call h .documentBegin).1 with state := .parsing, stack := .document 0 :: p.stack }

/-- What is said of a parser at the beginning of a call, and of every turn of the loop, is said at the end of the call. -/
theorem step_law (hlaw : Law h K) (hstep : step h toDouble p a = some (q, out)) (hreader : ReaderOk p.reader)
    (hp : ∀ data, K ⟨p, [], data, p.lastEc⟩)
    (hbegin : p.lastEc = none → p.state = .notStarted → (h.on p.handler .documentBegin).2.ok = true →
      ∀ data, K ⟨p.begun (h := h), [], data, (h.on p.handler .documentBegin).2.ec⟩)
    (hrefused : p.lastEc = none → p.state = .notStarted → (h.on p.handler .documentBegin).2.ok = false →
      K ⟨{ (p.call h .documentBegin).1 with state := .failed }, [], [], (h.on p.handler .documentBegin).2.error⟩)
    (hstuck : p.lastEc = none → p.stack = [] → K ⟨{ p with state := .failed }, [], [], none⟩)
    (hturn : ∀ t, InLoop h toDouble p a t → ¬t.Stops → ReaderOk t.parser.reader → t.parser.lastEc = none → K t →
      K (turn h toDouble t.parser t.seen t.rest))
    (hroot : ∀ r pointPos ePos hasMinus item, Finishes h toDouble p a r →
      RootNumber h toDouble r pointPos ePos hasMinus item → K ⟨r, [], [], none⟩ →
        K ⟨(r.finish h toDouble).1, [], [], (r.finish h toDouble).2⟩) :
    ∃ ec, out = [ec] ∧ K ⟨q, [], [], ec⟩ ∧ ReaderOk q.reader ∧
      (q.lastEc = ec ∨ (p.lastEc = none ∧ p.state = .notStarted ∧ (h.on p.handler .documentBegin).2.ok = false ∧
        q = { (p.call h .documentBegin).1 with state := .failed })) := by
  cases a with
  | finish =>
      simp only [step, Option.some.injEq, Prod.mk.injEq] at hstep
      obtain ⟨rfl, rfl⟩ := hstep
      have hK : K ⟨(p.finish h toDouble).1, [], [], (p.finish h toDouble).2⟩ :=
        finish_law hlaw (hp []) fun pointPos ePos hasMinus item hnumber =>
          hroot p pointPos ePos hasMinus item rfl hnumber (hnumber.lastEc ▸ hp [])
      exact ⟨_, rfl, hK, by rw [finish_reader]; exact hreader, .inl (finish_lastEc h toDouble p)⟩
  | writeSome more data =>
  simp only [step, Option.some.injEq, Prod.mk.injEq] at hstep
  obtain ⟨rfl, rfl⟩ := hstep
  refine ⟨_, rfl, ?_⟩
  -- behind the beginning of the call
  have hloop {q : Parser σ} (henter : p.enter h = .ok (q, none)) (hq : K ⟨q, [], data, none⟩)
      (hlastEc : q.lastEc = none)
      (hreader : ReaderOk q.reader) :
      K ⟨(afterText h toDouble more data (parseText h toDouble q data)).1, [], [],
          (afterText h toDouble more data (parseText h toDouble q data)).2.2⟩ ∧
        ReaderOk (afterText h toDouble more data (parseText h toDouble q data)).1.reader ∧
        (afterText h toDouble more data (parseText h toDouble q data)).1.lastEc =
          (afterText h toDouble more data (parseText h toDouble q data)).2.2 := by
    obtain ⟨hK, hlastEc', hreader', hends⟩ := parseText_law hlaw hreader hlastEc hq fun t hvisits =>
      hturn t ⟨more, data, q, rfl, henter, hvisits⟩
    obtain ⟨hafter, hlast, hok⟩ := afterText_law toDouble more data hlaw hK hlastEc' hreader' hends
      fun hmore hec pointPos ePos hasMinus item =>
        hroot _ pointPos ePos hasMinus item ⟨hmore, q, henter, hec, rfl⟩
    exact ⟨hafter, hok, hlast⟩
  cases hlastEc : p.lastEc with
  | some ec =>
      have henter : p.enter h = .error (p, some ec) := by simp [Parser.enter, hlastEc]
      simp only [Parser.writeSome, henter]
      exact ⟨hlastEc ▸ hp [], hreader, .inl hlastEc⟩
  | none =>
  by_cases hdone : p.state = .done
  · have henter : p.enter h = .error (p, none) := by simp [Parser.enter, hlastEc, hdone]
    simp only [Parser.writeSome, henter]
    exact ⟨hlastEc ▸ hp [], hreader, .inl hlastEc⟩
  by_cases hstart : p.state = .notStarted
  · cases ha : (h.on p.handler .documentBegin).2.ok with
    | false =>
        have henter : p.enter h = .error ({ (p.call h .documentBegin).1 with state := .failed },
            (h.on p.handler .documentBegin).2.error) := by
          simp [Parser.enter, Parser.call, hlastEc, hstart, ha]
        simp only [Parser.writeSome, henter]
        exact ⟨hrefused hlastEc hstart ha, hreader, .inr ⟨trivial, hstart, trivial, trivial⟩⟩
    | true =>
    have henter : p.enter h = .ok (p.begun (h := h), (h.on p.handler .documentBegin).2.ec) := by
      simp [Parser.enter, Parser.call, Parser.begun, hlastEc, hstart, ha]
    have hK := hbegin hlastEc hstart ha data
    cases hec : (h.on p.handler .documentBegin).2.ec with
    | none =>
        rw [hec] at henter hK
        obtain ⟨hafter, hok, hlast⟩ := hloop henter hK hlastEc hreader
        simp only [Parser.writeSome, henter]
        exact ⟨hafter, hok, .inl hlast⟩
    | some ec =>
        rw [hec] at henter hK
        obtain ⟨hafter, hlast, hok⟩ :=
          afterText_law toDouble more data hlaw hK hlastEc hreader
          (.inr (.inr (.inr (.inl (by simp))))) fun _ hnone => by cases hnone
        simp only [Parser.writeSome, henter]
        exact ⟨hafter, hok, .inl hlast⟩
  by_cases hstack : p.stack = []
  · have henter : p.enter h = .error ({ p with state := .failed }, none) := by
      simp [Parser.enter, hlastEc, hdone, hstart, hstack]
    simp only [Parser.writeSome, henter]
    exact ⟨hstuck hlastEc hstack, hreader, .inl hlastEc⟩
  · have henter : p.enter h = .ok (p, none) := by simp [Parser.enter, hlastEc, hdone, hstart, hstack]
    obtain ⟨hafter, hok, hlast⟩ := hloop henter (hlastEc ▸ hp data) hlastEc hreader
    simp only [Parser.writeSome, henter]
    exact ⟨hafter, hok, .inl hlast⟩

end

end Rad.Json.Sax
