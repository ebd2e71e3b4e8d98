import Rad.Json.Lemmas.SaxCalls

/-!
# The parser and its handler

Over every run, with texts in any chunks: what is on the stack, which sizes the handler sees, and what comes of a
callback that returns false.
-/

namespace Rad.Json.Sax

section

variable {σ : Type} {h : Handler σ} {toDouble : Bool → Bytes → Except ErrorCode UInt64} {p q : Parser σ}
  {item item' : Item}
  {stack stack' : List Item} {ec : Option Error} {many pends : Prop} {a : Action} {out : List (Option Error)}
  {xs : List (Lib.Transition (Parser σ) Action (Option Error))} {s : σ}

/-- A parser that is made with a handler. -/
def Parser.fresh (s : σ) : Parser σ := { handler := s }

/-! ## The stack -/

/-- The document item is at the bottom of the stack from the first call until the document ends, and the stack is empty
then. A parser that fails before has it there, or has not begun. -/
structure Disciplined (p : Parser σ) : Prop where
  unbroken : p.broken = false
  notStarted : p.state = .notStarted → p.stack = []
  parsing : p.state = .parsing → ∃ above n, p.stack = above ++ [.document n]
  done : p.state = .done → p.stack = []
  failed : p.state = .failed → p.stack = [] ∨ ∃ above n, p.stack = above ++ [.document n]

/-- What the stack is in each state. -/
structure Shaped (p : Parser σ) : Prop where
  unbroken : p.broken = false
  stack : p.stack = [] ∨ StackOk p.stack
  parsing : p.state = .parsing → p.stack ≠ []
  idle : p.state = .notStarted ∨ p.state = .done → p.stack = []

theorem Nested.bottom (h : Nested stack) : ∃ above n, stack = above ++ [.document n] := by
  induction h with
  | document n => exact ⟨[], n, rfl⟩
  | array m step _ ih =>
      obtain ⟨above, n, rfl⟩ := ih
      exact ⟨_ :: above, n, rfl⟩
  | object m step _ ih =>
      obtain ⟨above, n, rfl⟩ := ih
      exact ⟨_ :: above, n, rfl⟩

theorem StackOk.bottom (h : StackOk stack) : ∃ above n, stack = above ++ [.document n] := by
  rcases h with hnested | ⟨item, below, rfl, -, hnested⟩
  · exact hnested.bottom
  · obtain ⟨above, n, rfl⟩ := hnested.bottom
    exact ⟨item :: above, n, rfl⟩

theorem Shaped.disciplined (hp : Shaped p) : Disciplined p where
  unbroken := hp.unbroken
  notStarted hstate := hp.idle (.inl hstate)
  parsing hstate := (hp.stack.resolve_left (hp.parsing hstate)).bottom
  done hstate := hp.idle (.inr hstate)
  failed _ := hp.stack.imp_right StackOk.bottom

/-- An item that advances is of the kind that it was. -/
theorem Advances.stackOk (hitem : Advances h ec many item item') (hok : StackOk (item :: stack)) :
    StackOk (item' :: stack) := by
  rcases hok with hnested | ⟨_, _, heq, hcontainer, hnested⟩
  · cases hnested with
    | document n => cases item' <;> first | exact hitem.elim | exact .inl (.document _)
    | array n step hbelow => cases item' <;> first | exact hitem.elim | exact .inl (.array _ _ hbelow)
    | object n step hbelow => cases item' <;> first | exact hitem.elim | exact .inl (.object _ _ hbelow)
  · obtain ⟨rfl, rfl⟩ := List.cons.inj heq
    refine .inr ⟨item', stack, rfl, ?_, hnested⟩
    cases item <;> cases item' <;> first | exact hitem.elim | exact hcontainer

theorem StackOk.nested (hok : StackOk (item :: stack)) (hcontainer : item.IsContainer) : Nested (item :: stack) := by
  rcases hok with hnested | ⟨_, _, heq, hno, -⟩
  · exact hnested
  · obtain ⟨rfl, rfl⟩ := List.cons.inj heq
    exact absurd hcontainer hno

/-- What is below an item that ends. -/
theorem StackOk.below (hok : StackOk (item :: stack)) (hitem : ¬item.IsDocument) : StackOk stack := by
  rcases hok with hnested | ⟨_, _, heq, -, hnested⟩
  · cases hnested with
    | document n => exact absurd trivial hitem
    | array n step hbelow => exact .inl hbelow
    | object n step hbelow => exact .inl hbelow
  · obtain ⟨rfl, rfl⟩ := List.cons.inj heq
    exact .inl hnested

theorem StackOk.ne_nil (hok : StackOk stack) : stack ≠ [] := by
  obtain ⟨above, n, rfl⟩ := hok.bottom
  simp

theorem Moves.stackOk (hmoves : Moves h ec many item stack stack') (hok : StackOk (item :: stack)) :
    StackOk stack' := by
  cases hmoves with
  | keep hitem => exact hitem.stackOk hok
  | pop hitem => exact hok.below hitem
  | @push item' new hitem hcontainer hnew =>
      have hok' := hitem.stackOk hok
      have hcontainer' : item'.IsContainer := by
        cases item <;> cases item' <;> first | exact hitem.elim | exact hcontainer.elim | trivial
      have hnested := hok'.nested hcontainer'
      cases new with
      | document n => exact hnew.elim
      | array n step => exact .inl (.array n step hnested)
      | object n step => exact .inl (.object n step hnested)
      | _ => exact .inr ⟨_, _, rfl, fun h => h, hnested⟩

/-- A turn keeps what the stack is in each state. -/
theorem Does.shaped (hdoes : Does h many pends p item stack q ec) (hp : Shaped p) (hstack : p.stack = item :: stack) :
    Shaped q := by
  have hok : StackOk (item :: stack) := hstack ▸ hp.stack.resolve_left (by simp [hstack])
  have hidle : ¬(p.state = .notStarted ∨ p.state = .done) := fun hidle => by simp [hp.idle hidle] at hstack
  have hunbroken := hdoes.broken.trans hp.unbroken
  rcases hdoes.moves with ⟨hstate, hmoves⟩ | ⟨hitem, hstack', a, -, hstate⟩
  · have hok' := hmoves.stackOk hok
    exact ⟨hunbroken, .inr hok', fun _ => hok'.ne_nil, fun hno => absurd (hstate ▸ hno) hidle⟩
  · have hempty : q.stack = [] := by
      cases item with
      | document n =>
          rcases hok with hnested | ⟨_, _, heq, hno, -⟩
          · cases hnested
            exact hstack'
          · obtain ⟨rfl, rfl⟩ := List.cons.inj heq
            exact absurd trivial hno
      | _ => exact hitem.elim
    refine ⟨hunbroken, .inl hempty, fun hparsing => ?_, fun _ => hempty⟩
    rw [hstate] at hparsing
    cases ha : a.ok <;> simp [ha] at hparsing

theorem Shaped.turn {t : Turn σ} (ht : Shaped t.parser) (hstops : ¬t.Stops) (hreader : ReaderOk t.parser.reader) :
    Shaped (turn h toDouble t.parser t.seen t.rest).parser := by
  have hne : t.rest ≠ [] := fun hnil => hstops (.inl hnil)
  have hparsing : t.parser.state = .parsing := not_not.1 fun hno => hstops (.inr (.inl hno))
  obtain ⟨item, stack, hstack⟩ := List.exists_cons_of_ne_nil (ht.parsing hparsing)
  exact (turn_does h toDouble t.seen hstack hreader hne).shaped ht hstack

theorem shaped_law : Law h fun t => Shaped t.parser where
  does hp _ hstack hdoes := hdoes.shaped hp hstack
  error _ hp _ := hp
  waits hp := hp
  failWith hp := ⟨hp.unbroken, hp.stack, nofun, nofun⟩
  ended hp _ := hp
  done hp _ hstack := ⟨hp.unbroken, .inl hstack, nofun, fun _ => hstack⟩

theorem Shaped.begun (hp : Shaped p) (hstate : p.state = .notStarted) : Shaped (p.begun (h := h)) := by
  refine ⟨hp.unbroken, .inr (.inl ?_), fun _ => by simp [Parser.begun], nofun⟩
  rw [Parser.begun, hp.idle (.inl hstate)]
  exact .document 0

/-- The stack behind a call that does not end the input inside a number that is the root. -/
theorem step_shaped (hp : Shaped p) (hreader : ReaderOk p.reader) (hstep : step h toDouble p a = some (q, out))
    (hends : ¬EndsInNumber h toDouble p a) : Shaped q ∧ ReaderOk q.reader := by
  obtain ⟨ec, -, hq, hreader', -⟩ :=
    step_law shaped_law hstep hreader (fun _ => hp) (fun _ hstate _ _ => hp.begun hstate)
    (fun _ hstate _ => ⟨hp.unbroken, hp.stack, nofun, nofun⟩) (fun _ hstack => ⟨hp.unbroken, hp.stack, nofun, nofun⟩)
    (fun t _ hstops hreader _ ht => ht.turn hstops hreader)
    (fun r _ _ _ _ hfinishes hnumber => absurd ⟨r, _, _, _, _, hfinishes, hnumber⟩ hends)
  exact ⟨hq, hreader'⟩

theorem shaped_fresh (s : σ) : Shaped (Parser.fresh s) := ⟨rfl, .inl rfl, nofun, fun _ => rfl⟩

theorem enter_ok (henter : p.enter h = .ok (q, ec)) : q = p ∨ (p.state = .notStarted ∧ q = p.begun (h := h)) := by
  unfold Parser.enter at henter
  split at henter
  next => cases henter
  next =>
  split at henter
  next => cases henter
  next =>
  split at henter
  next hstate =>
    cases ha : (h.on p.handler .documentBegin).2.ok with
    | true =>
        simp only [Parser.call, ha, if_true] at henter
        cases henter
        exact .inr ⟨hstate, rfl⟩
    | false =>
        simp only [Parser.call, ha, Bool.false_eq_true, if_false] at henter
        cases henter
  next =>
  split at henter
  next => cases henter
  next =>
    cases henter
    exact .inl rfl

theorem InLoop.shaped {t : Turn σ} (ht : InLoop h toDouble p a t) (hp : Shaped p) (hreader : ReaderOk p.reader) :
    Shaped t.parser := by
  obtain ⟨more, data, q, -, henter, hvisits⟩ := ht
  have hq : Shaped q ∧ q.reader = p.reader := by
    rcases enter_ok henter with rfl | ⟨hstate, rfl⟩
    · exact ⟨hp, rfl⟩
    · exact ⟨hp.begun hstate, rfl⟩
  have hreader' : ReaderOk q.reader := hq.2 ▸ hreader
  refine hvisits.preserves (I := fun t => Shaped t.parser) (fun u v hu hshaped hpass => ?_) hq.1
  by_cases hstops : u.Stops
  · rw [pass_stops hstops] at hpass
    cases hpass
  · rw [pass_goes hstops] at hpass
    cases hpass
    exact hshaped.turn hstops (readerOk_of_visits hu hreader')

/-- The stack keeps its discipline in every run in which no call ends the input inside a number that is the root. -/
theorem stack_disciplined (hrun : Lib.Run (step h toDouble) (.fresh s) xs p)
    (hends : ∀ x ∈ xs, ¬EndsInNumber h toDouble x.before x.action) :
    Disciplined p ∧ ∀ a t, InLoop h toDouble p a t → Disciplined t.parser := by
  have hp : Shaped p ∧ ReaderOk p.reader := by
    induction hrun with
    | start => exact ⟨shaped_fresh s, .inl rfl⟩
    | next hrun hstep ih =>
        obtain ⟨hshaped, hreader⟩ := ih fun x hx => hends x (List.mem_append_left _ hx)
        exact step_shaped hshaped hreader hstep (hends _ (List.mem_append_right _ List.mem_cons_self))
  exact ⟨hp.1.disciplined, fun a t ht => (ht.shaped hp.1 hp.2).disciplined⟩

/-- A handler that takes everything. -/
def taking : Handler Unit := ⟨2 ^ 64 - 1, 2 ^ 64 - 1, 2 ^ 64 - 1, 2 ^ 64 - 1, fun s _ => (s, ⟨true, none⟩)⟩

theorem stack_disciplined_array :
    ∃ xs p, Lib.Run (step taking fun _ _ => .ok 0) (.fresh ()) xs p ∧ xs ≠ [] ∧ Disciplined p := by
  have hends : ¬EndsInNumber taking (fun _ _ => .ok 0) (.fresh ()) (.writeSome false (ascii "[1]")) := by
    rintro ⟨r, pointPos, ePos, hasMinus, item, ⟨-, r', henter, -, rfl⟩, hnumber⟩
    cases henter
    have hlength :
        (parseText taking (fun _ _ => .ok 0) (Parser.begun (h := taking) (.fresh ()))
          (ascii "[1]")).parser.stack.length = 2 :=
      congrArg List.length hnumber.stack
    exact absurd hlength (by decide)
  obtain ⟨q, out, hstep⟩ : ∃ q out, step taking (fun _ _ => .ok 0) (.fresh ()) (.writeSome false (ascii "[1]")) =
      some (q, out) := ⟨_, _, rfl⟩
  exact ⟨_, q, .single hstep, by simp,
    (stack_disciplined (.single hstep) fun x hx => List.mem_singleton.1 hx ▸ hends).1⟩

/-- A number that is the root: `finish` pops it twice. -/
theorem root_number_popped_twice :
    ∃ xs p, Lib.Run (step taking fun _ _ => .ok 0) (.fresh ()) xs p ∧ ¬Disciplined p :=
  ⟨_, _, .next (.single (a := .writeSome true [0x31]) rfl) (a := .finish) rfl,
    fun hp => absurd hp.unbroken (by decide)⟩

/-! ## Parsers that have failed -/

/-- A parser that keeps an error has failed, and one that is not started has nothing on its stack. -/
structure Kept (p : Parser σ) : Prop where
  failed : p.lastEc ≠ none → p.state = .failed
  notStarted : p.state = .notStarted → p.stack = []

theorem Does.kept (hdoes : Does h many pends p item stack q ec) (hp : Kept p) (hlastEc : p.lastEc = none)
    (hstack : p.stack = item :: stack) : Kept q := by
  refine ⟨fun hno => absurd (hdoes.lastEc.trans hlastEc) hno, fun hstate => ?_⟩
  rcases hdoes.moves with ⟨hsame, -⟩ | ⟨-, -, a, -, hend⟩
  · have := hp.notStarted (hsame ▸ hstate)
    simp [hstack] at this
  · rw [hend] at hstate
    cases ha : a.ok <;> simp [ha] at hstate

theorem kept_law : Law h fun t => Kept t.parser where
  does hp hlastEc hstack hdoes := hdoes.kept hp hlastEc hstack
  error _ hp _ := hp
  waits hp := hp
  failWith _ := ⟨fun _ => rfl, nofun⟩
  ended hp _ := hp
  done _ hlastEc _ := ⟨fun hno => absurd hlastEc hno, nofun⟩

theorem step_kept (hp : Kept p) (hreader : ReaderOk p.reader) (hstep : step h toDouble p a = some (q, out)) :
    Kept q ∧ ReaderOk q.reader := by
  obtain ⟨ec, -, hq, hreader', -⟩ := step_law kept_law hstep hreader (fun _ => hp)
    (fun hlastEc _ _ _ => ⟨fun hno => absurd hlastEc hno, (fun h => by cases h)⟩)
    (fun hlastEc _ _ => ⟨fun hno => absurd hlastEc hno, (by simp)⟩)
    (fun hlastEc _ => ⟨fun hno => absurd hlastEc hno, (by simp)⟩)
    (fun t _ hstops hreader hlastEc hK => by
      have hne : t.rest ≠ [] := fun hnil => hstops (.inl hnil)
      cases hstack : t.parser.stack with
      | nil =>
          have hturn :
              turn h toDouble t.parser t.seen t.rest = ⟨{ t.parser with broken := true }, t.seen, t.rest, none⟩ := by
            simp [turn, hstack]
          rw [hturn]
          exact ⟨hK.failed, hK.notStarted⟩
      | cons item stack => exact (turn_does h toDouble _ hstack hreader hne).kept hK hlastEc hstack)
    (fun r pointPos ePos hasMinus item _ hnumber hK => by
      rw [hnumber.finish]
      split
      next =>
        have hlastEc : (validateAndReportNumber h toDouble r pointPos ePos hasMinus [item]).1.lastEc = none :=
          (validateAndReportNumber_lastEc _ _ _ _ _ _ _).trans hnumber.lastEc
        exact ⟨fun hno => absurd hlastEc hno, fun _ => rfl⟩
      next => exact ⟨fun hno => absurd hnumber.lastEc hno, (by simp)⟩)
  exact ⟨hq, hreader'⟩

theorem run_kept (hrun : Lib.Run (step h toDouble) (.fresh s) xs p) : Kept p ∧ ReaderOk p.reader :=
  hrun.invariant ⟨⟨nofun, fun _ => rfl⟩, .inl rfl⟩ fun _ _ _ _ hs hstep => step_kept hs.1 hs.2 hstep

/-! ## The limits of the handler -/

/-- The error of an item that has more than the handler allows. -/
def Item.tooLarge : Item → Option Error
  | .array _ _ => some .arrayTooLarge
  | .object _ _ => some .objectTooLarge
  | .string _ => some .stringTooLarge
  | .key _ _ => some .keyTooLarge
  | _ => none

def Item.Within (h : Handler σ) : Item → Prop
  | .array n _ => n ≤ h.maxArraySize
  | .object n _ => n ≤ h.maxObjectSize
  | .string n => n ≤ h.maxStringSize
  | .key n _ => n ≤ h.maxKeySize
  | _ => True

/-- What has come to the handler is within its limits, and what is read is too or has made the error of its kind. -/
structure Limited (h : Handler σ) (t : Turn σ) : Prop where
  calls : ∀ c ∈ t.parser.calls, c.event.Within h
  stack : ∀ item ∈ t.parser.stack, item.Within h ∨ (t.ec = item.tooLarge ∧ item.tooLarge ≠ none)

theorem Item.Begins.within (hnew : item.Begins) : item.Within h := by
  cases item with
  | document n => exact hnew.elim
  | string n | array n _ | object n _ | key n _ => exact hnew.trans_le (Nat.zero_le _)
  | _ => trivial

theorem Advances.within (hitem : Advances h ec False item item') (hwithin : item.Within h) :
    item'.Within h ∨ (ec = item'.tooLarge ∧ item'.tooLarge ≠ none) := by
  cases item <;> cases item' <;> first | exact hitem.elim | exact .inl trivial | skip
  case string.string n m =>
    rcases hitem with rfl | hm | hec
    exacts [.inl hwithin, .inl hm, .inr ⟨hec, nofun⟩]
  case key.key n _ m _ =>
    rcases hitem with rfl | hm | hec
    exacts [.inl hwithin, .inl hm, .inr ⟨hec, nofun⟩]
  case array.array n _ m _ =>
    rcases hitem with rfl | hm | hover
    exacts [.inl hwithin, .inl hm, hover.elim]
  case object.object n _ m _ =>
    rcases hitem with hm | hm | hec
    exacts [.inl (hm.trans hwithin), .inl hm, .inr ⟨hec, nofun⟩]

theorem Limited.within {t : Turn σ} (ht : Limited h t)
    (hec : t.ec = none ∨ t.ec = some (.json (.errc .noBufferSpace))) : ∀ item ∈ t.parser.stack, item.Within h := by
  intro item hitem
  rcases ht.stack item hitem with hwithin | ⟨heq, hne⟩
  · exact hwithin
  · rw [heq] at hec
    cases item <;> simp [Item.tooLarge] at hec hne

theorem Does.limited {seen rest : Bytes} (seen' rest' : Bytes) (hdoes : Does h False pends p item stack q ec)
    (hp : Limited h ⟨p, seen, rest, none⟩) (hstack : p.stack = item :: stack) : Limited h ⟨q, seen', rest', ec⟩ := by
  have hall := hp.within (.inl rfl)
  dsimp only at hall
  rw [hstack] at hall
  have hitem : item.Within h := hall item List.mem_cons_self
  have hbelow {item' : Item} (hmem : item' ∈ stack) : item'.Within h := hall item' (List.mem_cons_of_mem _ hmem)
  refine ⟨?_, ?_⟩
  · have hcalls := hdoes.calls
    dsimp only
    generalize q.calls = calls at hcalls
    cases hcalls with
    | none => exact hp.calls
    | @one e a hevent _ _ _ =>
        intro c hc
        rcases List.mem_append.1 hc with hold | hnew
        · exact hp.calls c hold
        obtain rfl := List.mem_singleton.1 hnew
        rcases hevent with hwithin | hcounts
        · exact hwithin
        cases item <;> cases e <;> first | exact hcounts.elim | skip
        all_goals
          obtain rfl := hcounts
          exact hitem
  · dsimp only
    rcases hdoes.moves with ⟨-, hmoves⟩ | ⟨-, hstack', -⟩
    · generalize q.stack = stack' at hmoves
      cases hmoves with
      | keep hitem' =>
          rintro i (_ | ⟨_, hi⟩)
          exacts [hitem'.within hitem, .inl (hbelow hi)]
      | push hitem' _ hnew =>
          rintro i (_ | ⟨_, _ | ⟨_, hi⟩⟩)
          exacts [.inl hnew.within, hitem'.within hitem, .inl (hbelow hi)]
      | pop => exact fun i hi => .inl (hbelow hi)
    · rw [hstack']
      exact fun i hi => .inl (hbelow hi)

theorem limited_law : Law h (Limited h) where
  does hp _ hstack hdoes := hdoes.limited _ _ hp hstack
  error _ hp hec := ⟨hp.calls, fun item hitem => .inl (hp.within hec item hitem)⟩
  waits hp := ⟨hp.calls, fun item hitem => .inl (hp.within (.inr rfl) item hitem)⟩
  failWith hp := ⟨hp.calls, hp.stack⟩
  ended hp _ := ⟨hp.calls, hp.stack⟩
  done hp _ _ := ⟨hp.calls, hp.stack⟩

/-- A call comes to an array that has as many elements as it may have and begins another one. -/
def OverfillsArray (h : Handler σ) (toDouble : Bool → Bytes → Except ErrorCode UInt64) (p : Parser σ) (a : Action) :
    Prop :=
  ∃ t, InLoop h toDouble p a t ∧ ¬t.Stops ∧ StartsTooMany h t.parser t.rest

theorem Limited.call {seen rest rest' : Bytes} {e : Event} {state : ParserState} (hp : Limited h ⟨p, seen, rest, none⟩)
    (he : e.Within h) {stack : List Item} (hstack : ∀ item ∈ stack, item.Within h) :
    Limited h ⟨{ (p.call h e).1 with state, stack }, seen, rest', ec⟩ where
  calls c hc := by
    rcases List.mem_append.1 hc with hold | hnew
    · exact hp.calls c hold
    · rw [List.mem_singleton.1 hnew]
      exact he
  stack item hitem := .inl (hstack item hitem)

theorem step_limited (hp : Limited h ⟨p, [], [], p.lastEc⟩) (hreader : ReaderOk p.reader)
    (hstep : step h toDouble p a = some (q, out)) (hfull : ¬OverfillsArray h toDouble p a) :
    Limited h ⟨q, [], [], q.lastEc⟩ ∧ ReaderOk q.reader := by
  have hidle (hlastEc : p.lastEc = none) : Limited h ⟨p, [], [], none⟩ := hlastEc ▸ hp
  obtain ⟨ec, -, hq, hreader', hlast⟩ := step_law limited_law hstep hreader
    (fun data => ⟨hp.calls, hp.stack⟩)
    (fun hlastEc _ _ data => (hidle hlastEc).call (e := .documentBegin) trivial fun item hitem => by
      rcases List.mem_cons.1 hitem with rfl | hitem
      · trivial
      · exact (hidle hlastEc).within (.inl rfl) item hitem)
    (fun hlastEc _ _ => (hidle hlastEc).call (e := .documentBegin) trivial ((hidle hlastEc).within (.inl rfl)))
    (fun _ hstack => ⟨hp.calls, fun item hitem => by simp [hstack] at hitem⟩)
    (fun t ht hstops hreader _ hK => by
      obtain ⟨r, seen, rest, ec⟩ := t
      have hec : ec = none := not_not.1 fun hno => hstops (.inr (.inr (.inl hno)))
      subst hec
      have hne : rest ≠ [] := fun hnil => hstops (.inl hnil)
      cases hstack : r.stack with
      | nil =>
          have hbroken : turn h toDouble r seen rest = ⟨{ r with broken := true }, seen, rest, none⟩ := by
            simp [turn, hstack]
          rw [hbroken]
          exact ⟨hK.calls, hK.stack⟩
      | cons item stack =>
          have hdoes := turn_does h toDouble seen hstack hreader hne
          have hno : StartsTooMany h r rest ↔ False := iff_false_intro fun hmany => hfull ⟨_, ht, hstops, hmany⟩
          rw [propext hno] at hdoes
          exact hdoes.limited _ _ hK hstack)
    (fun r pointPos ePos hasMinus item _ hnumber hK => by
      rw [hnumber.finish]
      split
      next =>
        have hdoes : Does h False False r (.number pointPos ePos hasMinus) [item] _ _ :=
          validateAndReportNumber_does toDouble r [item] pointPos ePos hasMinus fun h => h
        have hlimited := hdoes.limited [] [] hK hnumber.stack
        exact ⟨hlimited.calls, (by simp)⟩
      next => exact ⟨hK.calls, hK.stack⟩)
  refine ⟨?_, hreader'⟩
  rcases hlast with rfl | ⟨hlastEc, hstate, -, rfl⟩
  · exact hq
  · rw [show ({ (p.call h .documentBegin).1 with state := .failed } : Parser σ).lastEc = none from hlastEc]
    exact (hidle hlastEc).call (e := .documentBegin) trivial ((hidle hlastEc).within (.inl rfl))

/-- What the handler is told is within its limits in every run that begins no element in an array that is full. That it
is told the sizes of the text is not said. -/
theorem told_within (hrun : Lib.Run (step h toDouble) (.fresh s) xs p)
    (hfull : ∀ x ∈ xs, ¬OverfillsArray h toDouble x.before x.action) :
    (∀ c ∈ p.calls, c.event.Within h) ∧
      ∀ item ∈ p.stack, item.Within h ∨ (p.state = .failed ∧ p.lastEc = item.tooLarge) := by
  have hp : Limited h ⟨p, [], [], p.lastEc⟩ ∧ ReaderOk p.reader := by
    induction hrun with
    | start => exact ⟨⟨nofun, nofun⟩, .inl rfl⟩
    | next hrun hstep ih =>
        obtain ⟨hlimited, hreader⟩ := ih fun x hx => hfull x (List.mem_append_left _ hx)
        exact step_limited hlimited hreader hstep (hfull _ (List.mem_append_right _ List.mem_cons_self))
  refine ⟨hp.1.calls, fun item hitem => ?_⟩
  rcases hp.1.stack item hitem with hwithin | ⟨heq, hne⟩
  · exact .inl hwithin
  · exact .inr ⟨(run_kept hrun).1.failed fun hnone => hne (heq.symm.trans hnone), heq⟩

/-- A handler of arrays with one element. -/
def single : Handler Unit := { taking with maxArraySize := 1 }

/-- The second element of an array that may have one is begun, and the handler is told of two. -/
theorem array_overfilled :
    ∃ xs p, Lib.Run (step single fun _ _ => .ok 0) (.fresh ()) xs p ∧ ∃ c ∈ p.calls, ¬c.event.Within single :=
  ⟨_, _, .single (a := .writeSome false (ascii "[null,null]")) rfl, ⟨.arrayEnd 2, ⟨true, none⟩⟩, by decide,
    by simp [Event.Within, single]⟩

/-! ## A handler that stops the parser -/

/-- A callback that returns false and sets no error code, and not one that refuses an array or object: the parser
comes to its bracket again then, and that is an error of syntax. -/
def Call.Silent (c : Call) : Prop := c.answer.ok = false ∧ c.answer.ec = none ∧ ¬c.event.IsBegin

def Call.Passes (c : Call) : Prop := c.answer.ok = true ∨ c.Silent

/-- Behind the calls of the handler in earlier calls of the parser: the last one at most does not pass, and the error
code is set then, or the loops come to the bracket of what has been refused. -/
inductive Obeys (before : List Call) (t : Turn σ) : Prop where
  | passes {cs : List Call} (hcalls : t.parser.calls = before ++ cs) (hok : ∀ c ∈ cs, c.Passes)
  | stopped {cs : List Call} {c : Call} (hcalls : t.parser.calls = before ++ (cs ++ [c])) (hok : ∀ c ∈ cs, c.Passes)
      (hec : Interrupts t.ec)
  | pends {cs : List Call} {c : Call} (hcalls : t.parser.calls = before ++ (cs ++ [c])) (hok : ∀ c ∈ cs, c.Passes)
      (hec : t.ec = none) (hstate : t.parser.state = .parsing) (hbroken : t.parser.broken = false) (hpends : t.Pends)

theorem Obeys.congr {before : List Call} {t t' : Turn σ} (ht : Obeys before t)
    (hcalls : t'.parser.calls = t.parser.calls)
    (hec : Interrupts t.ec → Interrupts t'.ec) (hpends : ¬(t.ec = none ∧ t.parser.state = .parsing ∧
      t.parser.broken = false ∧ t.Pends)) : Obeys before t' := by
  cases ht with
  | passes hcs hok => exact .passes (hcalls.trans hcs) hok
  | stopped hcs hok hstop => exact .stopped (hcalls.trans hcs) hok (hec hstop)
  | pends hcs hok hnone hstate hbroken hwait => exact absurd ⟨hnone, hstate, hbroken, hwait⟩ hpends

theorem Turn.Pends.rest_ne {t : Turn σ} (ht : t.Pends) : t.rest ≠ [] := by
  obtain ⟨b, rest, heq, -⟩ := ht.bracket
  simp [heq]

variable (h toDouble) in
/-- The turn on a bracket that has been refused. -/
theorem Turn.Pends.turn {t : Turn σ} (ht : t.Pends) :
    ∃ q, turn h toDouble t.parser t.seen t.rest = ⟨q, [], t.rest, some (.json .badSyntax)⟩ ∧
      q.calls = t.parser.calls := by
  obtain ⟨⟨handler, items, state, numberText, esc, reader, lastEc, calls, broken⟩, seen, rest, ec⟩ := t
  obtain ⟨hreader, ⟨b, rest', hrest, hb⟩, n, stack, hstack⟩ := ht
  dsimp only at hreader hrest hstack ⊢
  subst hrest hreader
  have hlow : b < 0x80 := by rcases hb with rfl | rfl <;> decide
  have hcp := decode_ascii hlow rest'
  refine ⟨⟨handler, items, state, numberText, esc, [], lastEc, calls, broken⟩, ?_, rfl⟩
  rcases hstack with rfl | rfl
  · simp only [Sax.turn, parseArray, withCodepoint, hcp]
    rcases hb with rfl | rfl <;> rfl
  · simp only [Sax.turn, parseObject, withCodepoint, hcp]
    rcases hb with rfl | rfl <;> rfl

theorem not_interrupts_none : ¬Interrupts none := by simp [Interrupts]

theorem Does.obeys {before : List Call} {seen rest : Bytes} (seen' rest' : Bytes) (hdoes : Does h many pends p item stack q ec)
    (hp : Obeys before ⟨p, seen, rest, none⟩)
    (hno : ¬(p.state = .parsing ∧ p.broken = false ∧ (⟨p, seen, rest, none⟩ : Turn σ).Pends))
    (hpends : pends → p.state = .parsing ∧ p.broken = false ∧ (⟨q, seen', rest', ec⟩ : Turn σ).Pends) :
    Obeys before ⟨q, seen', rest', ec⟩ := by
  -- the end of the document is not the beginning of an array or object
  have hstate {e : Event} {a : Answer} (hcalls : q.calls = p.calls ++ [⟨e, a⟩]) (he : e.IsBegin) :
      q.state = p.state := by
    rcases hdoes.moves with ⟨hstate, -⟩ | ⟨-, -, b, hend, -⟩
    · exact hstate
    · rw [hend] at hcalls
      cases List.singleton_inj.1 (List.append_cancel_left hcalls)
      exact he.elim
  have hcalls := hdoes.calls
  generalize hq : q.calls = calls at hcalls
  cases hp with
  | stopped _ _ hstop => exact absurd hstop not_interrupts_none
  | pends _ _ _ hparsing hbroken hwait => exact absurd ⟨hparsing, hbroken, hwait⟩ hno
  | @passes cs hbefore hok =>
      dsimp only at hbefore
      cases hcalls with
      | none => exact .passes (hq.trans hbefore) hok
      | @one e a _ _ hstop hbegin =>
          rw [hbefore, List.append_assoc] at hq
          have hpass (hc : Call.Passes ⟨e, a⟩) : Obeys before ⟨q, seen', rest', ec⟩ := by
            refine .passes hq fun c hmem => ?_
            rcases List.mem_append.1 hmem with hold | hnew
            · exact hok c hold
            · exact List.mem_singleton.1 hnew ▸ hc
          cases ha : a.ok with
          | true => exact hpass (.inl ha)
          | false =>
          by_cases hec : a.ec = none
          swap
          · exact .stopped hq hok (hstop ha hec)
          by_cases he : e.IsBegin
          swap
          · exact hpass (.inr ⟨ha, hec, he⟩)
          rcases hbegin ha hec he with hstop | ⟨hnone, hwait⟩
          · exact .stopped hq hok hstop
          · obtain ⟨hparsing, hbroken, hwait⟩ := hpends hwait
            refine .pends hq hok hnone ?_ (hdoes.broken.trans hbroken) hwait
            exact (hstate (hq.trans (by rw [hbefore, List.append_assoc])) he).trans hparsing

theorem obeys_law (before : List Call) : Law h (Obeys before) where
  does hp _ _ hdoes := hdoes.obeys _ _ hp (fun hwait => hwait.2.2.rest_ne rfl) False.elim
  error _ hp hec := hp.congr rfl (fun hstop => by rcases hec with rfl | rfl <;> simp [Interrupts] at hstop)
    fun hwait => hwait.2.2.2.rest_ne rfl
  waits hp := hp.congr rfl (fun hstop => by simp [Interrupts] at hstop) fun hwait => nomatch hwait.1
  failWith hp := hp.congr rfl (fun hstop => hstop) fun hwait => nomatch hwait.1
  ended hp hover := hp.congr rfl (fun hstop => hstop) fun hwait => by
    rcases hover with hnil | hstate | hbroken
    · exact hwait.2.2.2.rest_ne hnil
    · exact hstate hwait.2.1
    · exact Bool.false_ne_true (hwait.2.2.1.symm.trans hbroken)
  done hp _ _ := hp.congr rfl (fun hstop => hstop) fun hwait => hwait.2.2.2.rest_ne rfl

theorem Obeys.turn {before : List Call} {t : Turn σ} (ht : Obeys before t) (hstops : ¬t.Stops)
    (hreader : ReaderOk t.parser.reader) :
    Obeys before (turn h toDouble t.parser t.seen t.rest) := by
  obtain ⟨p, seen, rest, ec⟩ := t
  have hec : ec = none := not_not.1 fun hno => hstops (.inr (.inr (.inl hno)))
  have hparsing : p.state = .parsing := not_not.1 fun hno => hstops (.inr (.inl hno))
  have hbroken : p.broken = false := Bool.eq_false_iff.2 fun hno => hstops (.inr (.inr (.inr hno)))
  have hne : rest ≠ [] := fun hnil => hstops (.inl hnil)
  subst hec
  by_cases hwait : (⟨p, seen, rest, none⟩ : Turn σ).Pends
  · obtain ⟨q, hturn, hcalls⟩ := hwait.turn h toDouble
    dsimp only at hturn hcalls ⊢
    rw [hturn]
    cases ht with
    | passes hcs hok => exact .passes (hcalls.trans hcs) hok
    | stopped hcs hok hstop => exact absurd hstop not_interrupts_none
    | pends hcs hok _ _ _ _ => exact .stopped (hcalls.trans hcs) hok (.inr rfl)
  cases hstack : p.stack with
  | nil =>
      have hturn : Sax.turn h toDouble p seen rest = ⟨{ p with broken := true }, seen, rest, none⟩ := by
        simp [Sax.turn, hstack]
      rw [hturn]
      exact ht.congr rfl (fun hstop => hstop) fun hno => hwait hno.2.2.2
  | cons item stack =>
      have hdoes := turn_does h toDouble seen hstack hreader hne
      exact hdoes.obeys _ _ ht (fun hno => hwait hno.2.2) fun hpends => ⟨hparsing, hbroken, hpends⟩

theorem step_obeys (hreader : ReaderOk p.reader) (hstep : step h toDouble p a = some (q, out)) :
    ∃ ec, out = [ec] ∧ Obeys p.calls ⟨q, [], [], ec⟩ ∧ (q.lastEc = ec ∨ (p.lastEc = none ∧ p.state = .notStarted ∧
      (h.on p.handler .documentBegin).2.ok = false ∧ q = { (p.call h .documentBegin).1 with state := .failed })) := by
  have hidle {r : Parser σ} {rest : Bytes} {ec : Option Error} (hcalls : r.calls = p.calls) :
      Obeys p.calls ⟨r, [], rest, ec⟩ :=
    .passes (hcalls.trans (List.append_nil p.calls).symm) nofun
  obtain ⟨ec, hout, hq, -, hlast⟩ := step_law (obeys_law p.calls) hstep hreader (fun _ => hidle rfl)
    (fun _ _ ha _ => .passes rfl fun c hc => .inl (by rw [List.mem_singleton.1 hc]; exact ha))
    (fun _ _ ha => by
      by_cases hec : (h.on p.handler .documentBegin).2.ec = none
      · exact .passes rfl fun c hc => .inr (by rw [List.mem_singleton.1 hc]; exact ⟨ha, hec, fun h => h⟩)
      · have hcalls : (p.call h .documentBegin).1.calls = p.calls ++ ([] ++ [⟨.documentBegin, _⟩]) := rfl
        exact .stopped hcalls nofun (.inl (Answer.error_of_stop ha hec)))
    (fun _ _ => hidle rfl) (fun t _ hstops hreader _ hK => hK.turn hstops hreader)
    (fun r pointPos ePos hasMinus item _ hnumber hK => by
      rw [hnumber.finish]
      split
      next hdigit =>
        have hdoes : Does h False False r (.number pointPos ePos hasMinus) [item] _ _ :=
          validateAndReportNumber_does toDouble r [item] pointPos ePos hasMinus fun h => h
        have hnone : (validateAndReportNumber h toDouble r pointPos ePos hasMinus [item]).2 = none := by
          obtain ⟨v, hv, hec⟩ := hnumber.number hdigit
          simp [validateAndReportNumber, hv, Parser.call, hec]
        rw [hnone] at hdoes
        have hobeys := hdoes.obeys [] [] hK (fun hwait => hwait.2.2.rest_ne rfl) False.elim
        exact hobeys.congr rfl (fun hstop => hstop) fun hwait => hwait.2.2.2.rest_ne rfl
      next => exact hK.congr rfl (fun hstop => hstop) fun hwait => hwait.2.2.2.rest_ne rfl)
  exact ⟨ec, hout, hq, hlast⟩

/-- A parser that no call changes any more, but for the error that it keeps. -/
def Dead (p : Parser σ) : Prop := p.state = .failed ∧ (p.lastEc ≠ none ∨ p.stack = [])

theorem Dead.step (hp : Dead p) (hstep : step h toDouble p a = some (q, out)) : Dead q ∧ q.calls = p.calls := by
  obtain ⟨hstate, hend⟩ := hp
  cases a with
  | finish =>
      simp only [Sax.step, Option.some.injEq, Prod.mk.injEq] at hstep
      obtain ⟨rfl, -⟩ := hstep
      cases hlastEc : p.lastEc with
      | some ec =>
          simp only [Parser.finish, hlastEc, Option.isSome_some, if_true]
          exact ⟨⟨hstate, .inl (by simp [hlastEc])⟩, trivial⟩
      | none =>
          have hstack : p.stack = [] := hend.resolve_left (not_not.2 hlastEc)
          have hfinish : p.finish h toDouble = (p.failWith (.json .incomplete), some (.json .incomplete)) := by
            simp [Parser.finish, hlastEc, hstate, hstack]
          rw [hfinish]
          exact ⟨⟨rfl, .inl (by simp [Parser.failWith])⟩, rfl⟩
  | writeSome more data =>
      simp only [Sax.step, Option.some.injEq, Prod.mk.injEq] at hstep
      obtain ⟨rfl, -⟩ := hstep
      cases hlastEc : p.lastEc with
      | some ec =>
          have henter : p.enter h = .error (p, some ec) := by simp [Parser.enter, hlastEc]
          simp only [Parser.writeSome, henter]
          exact ⟨⟨hstate, .inl (by simp [hlastEc])⟩, trivial⟩
      | none =>
          have hstack : p.stack = [] := hend.resolve_left (not_not.2 hlastEc)
          have henter : p.enter h = .error ({ p with state := .failed }, none) := by
            simp [Parser.enter, hlastEc, hstate, hstack]
          simp only [Parser.writeSome, henter]
          exact ⟨⟨rfl, .inr hstack⟩, trivial⟩

theorem Dead.run (hp : Dead p) (hrun : Lib.Run (Sax.step h toDouble) p xs q) : Dead q ∧ q.calls = p.calls :=
  hrun.invariant (I := fun r => Dead r ∧ r.calls = p.calls) ⟨hp, rfl⟩ fun _ _ _ _ hs hstep =>
    have hnext := hs.1.step hstep
    ⟨hnext.1, hnext.2.trans hs.2⟩

/-- A callback that returns false stops the parser, but for one that sets no error code: the call in which it is called
reports an error, nothing comes to the handler behind it, and the parser has failed. -/
theorem handler_stops {c : Call} {ys : List (Lib.Transition (Parser σ) Action (Option Error))} {r : Parser σ}
    (hrun : Lib.Run (step h toDouble) (.fresh s) xs p) (hstep : step h toDouble p a = some (q, out))
    (hc : c ∈ q.calls.drop p.calls.length) (hfalse : c.answer.ok = false) (hspeaks : ¬c.Silent)
    (hlater : Lib.Run (step h toDouble) q ys r) :
    (∃ e, out = [some e]) ∧ q.state = .failed ∧ q.calls.getLast? = some c ∧ r.calls = q.calls ∧ r.state = .failed := by
  obtain ⟨hkept, hreader⟩ := run_kept hrun
  obtain ⟨ec, rfl, hq, hlast⟩ := step_obeys hreader hstep
  cases hq with
  | @passes cs hcalls hok =>
      dsimp only at hcalls
      rw [hcalls, List.drop_left] at hc
      rcases hok c hc with htrue | hsilent
      · simp [hfalse] at htrue
      · exact absurd hsilent hspeaks
  | pends _ _ _ _ _ hwait => exact absurd rfl hwait.rest_ne
  | @stopped cs c' hcalls hok hstop =>
      dsimp only at hcalls hstop
      rw [hcalls, List.drop_left] at hc
      obtain rfl : c = c' := by
        rcases List.mem_append.1 hc with hold | hnew
        · rcases hok c hold with htrue | hsilent
          · simp [hfalse] at htrue
          · exact absurd hsilent hspeaks
        · exact List.mem_singleton.1 hnew
      have hdead : Dead q := by
        rcases hlast with hlastEc | ⟨-, hstate, -, rfl⟩
        · have hne : q.lastEc ≠ none := by
            rw [hlastEc]
            rintro rfl
            exact not_interrupts_none hstop
          exact ⟨(step_kept hkept hreader hstep).1.failed hne, .inl hne⟩
        · exact ⟨rfl, .inr (hkept.notStarted hstate)⟩
      refine ⟨?_, hdead.1, by simp [hcalls], (hdead.run hlater).2, (hdead.run hlater).1.1⟩
      rcases hstop with rfl | rfl <;> exact ⟨_, rfl⟩

/-- A handler that refuses null with an error code, or with none. -/
def refusing (ec : Option Error) : Handler Unit :=
  { taking with on := fun s e => (s, if e = .null then ⟨false, ec⟩ else ⟨true, none⟩) }

theorem handler_stops_null :
    ∃ q out, step (refusing (some (.handler 1))) (fun _ _ => .ok 0) (.fresh ())
      (.writeSome true (ascii "[null,null]")) =
      some (q, out) ∧ q.state = .failed := by
  have hstep : step (refusing (some (.handler 1))) (fun _ _ => .ok 0) (.fresh ())
      (.writeSome true (ascii "[null,null]")) =
      some (_, _) := rfl
  exact ⟨_, _, hstep, (handler_stops (c := ⟨.null, ⟨false, some (.handler 1)⟩⟩) .start hstep (by decide) rfl
    (by simp [Call.Silent]) .start).2.1⟩

/-- A callback that returns false without an error code is not heard. -/
theorem silent_callback_passes :
    ∃ q out, step (refusing none) (fun _ _ => .ok 0) (.fresh ()) (.writeSome false (ascii "[null,null]")) =
      some (q, out) ∧
      (∃ c ∈ q.calls, c.answer.ok = false) ∧ ¬((∃ e, out = [some e]) ∧ q.state = .failed) :=
  ⟨_, _, rfl, ⟨⟨.null, ⟨false, none⟩⟩, by decide, rfl⟩, fun hstop => absurd hstop.2 (by decide)⟩

end

end Rad.Json.Sax
