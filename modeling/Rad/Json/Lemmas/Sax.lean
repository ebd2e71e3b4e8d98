import Rad.Json.Lemmas.Scan
import Rad.Json.Sax

/-!
# What a turn does to the stack and to the calls

A turn keeps the item that takes it, begins another one on top of it, or ends it, and it calls the handler at most once.
-/

namespace Rad.Json.Sax

/-! ## The stack -/

def Item.IsDocument : Item → Prop
  | .document _ => True
  | _ => False

def Item.IsContainer : Item → Prop
  | .document _ => True
  | .array _ _ => True
  | .object _ _ => True
  | _ => False

/-- The document, and the arrays and objects in it that are not over. -/
inductive Nested : List Item → Prop where
  | document (n : Nat) : Nested [.document n]
  | array {stack : List Item} (n : Nat) (step : ArrayStep) (h : Nested stack) : Nested (.array n step :: stack)
  | object {stack : List Item} (n : Nat) (step : ObjectStep) (h : Nested stack) : Nested (.object n step :: stack)

/-- On top of what is nested there may be a value that is read. -/
def StackOk (stack : List Item) : Prop :=
  Nested stack ∨ ∃ item below, stack = item :: below ∧ ¬item.IsContainer ∧ Nested below

section

variable {σ : Type} (h : Handler σ)

/-- What an item is to another one that it becomes in a turn. `many` is whether the turn begins a value in a full
array. -/
def Advances (ec : Option Error) (many : Prop) : Item → Item → Prop
  | .document _, .document _ => True
  | .null _, .null _ => True
  | .bool _ _, .bool _ _ => True
  | .number _ _ _, .number _ _ _ => True
  | .string n, .string m => m = n ∨ m ≤ h.maxStringSize ∨ ec = some .stringTooLarge
  | .key n _, .key m _ => m = n ∨ m ≤ h.maxKeySize ∨ ec = some .keyTooLarge
  | .array n _, .array m _ => m = n ∨ m ≤ h.maxArraySize ∨ many
  | .object n _, .object m _ => m ≤ n ∨ m ≤ h.maxObjectSize ∨ ec = some .objectTooLarge
  | _, _ => False

/-- An item as it is put on the stack. -/
def Item.Begins : Item → Prop
  | .document _ => False
  | .string n => n = 0
  | .key n _ => n = 0
  | .array n _ => n = 0
  | .object n _ => n = 0
  | _ => True

inductive Moves (ec : Option Error) (many : Prop) (item : Item) (stack : List Item) : List Item → Prop where
  | keep {item' : Item} (hitem : Advances h ec many item item') : Moves ec many item stack (item' :: stack)
  | push {item' new : Item} (hitem : Advances h ec many item item') (hcontainer : item.IsContainer)
      (hnew : new.Begins) :
      Moves ec many item stack (new :: item' :: stack)
  | pop (hitem : ¬item.IsDocument) : Moves ec many item stack stack

/-! ## The calls -/

/-- An event that counts no more than the handler allows. -/
def Event.Within : Event → Prop
  | .arrayEnd n => n ≤ h.maxArraySize
  | .objectEnd n => n ≤ h.maxObjectSize
  | .string _ n => n ≤ h.maxStringSize
  | .key _ n => n ≤ h.maxKeySize
  | _ => True

/-- An event that counts what the item has. -/
def Item.Counts : Item → Event → Prop
  | .array n _, .arrayEnd m => m = n
  | .object n _, .objectEnd m => m = n
  | _, _ => False

/-- The beginning of an array or object. -/
def Event.IsBegin : Event → Prop
  | .arrayBegin => True
  | .objectBegin => True
  | _ => False

/-- The errors with which the loops end behind a callback that returns false. -/
def Interrupts (ec : Option Error) : Prop := ec = some .interrupted ∨ ec = some (.json .badSyntax)

/-- The calls behind a turn. A callback that returns false with an error code ends the loops with an error; where it
sets none and refuses an array or object, the error is one of syntax, or `pends` holds. -/
inductive Calls (pends : Prop) (item : Item) (calls : List Call) (ec : Option Error) : List Call → Prop where
  | none : Calls pends item calls ec calls
  | one {e : Event} {a : Answer} (hevent : e.Within h ∨ item.Counts e) (hok : a.ok = true → ec = a.ec)
      (hstop : a.ok = false → a.ec ≠ .none → Interrupts ec)
      (hbegin : a.ok = false → a.ec = .none → e.IsBegin → Interrupts ec ∨ (ec = .none ∧ pends)) :
      Calls pends item calls ec (calls ++ [⟨e, a⟩])

/-- What a turn of the item on top of the stack does. -/
structure Does (many pends : Prop) (p : Parser σ) (item : Item) (stack : List Item) (q : Parser σ)
    (ec : Option Error) : Prop where
  lastEc : q.lastEc = p.lastEc
  broken : q.broken = p.broken
  moves : (q.state = p.state ∧ Moves h ec many item stack q.stack) ∨
    (item.IsDocument ∧ q.stack = stack ∧ ∃ a, q.calls = p.calls ++ [⟨.documentEnd, a⟩] ∧
      q.state = if a.ok then .done else .failed)
  calls : Calls h pends item p.calls ec q.calls

/-- The loops come again to the bracket of an array or object that the handler has refused. -/
structure Turn.Pends (t : Turn σ) : Prop where
  reader : t.parser.reader = []
  bracket : ∃ b rest, t.rest = b :: rest ∧ (b = 0x5b ∨ b = 0x7b)
  top : ∃ n stack, t.parser.stack = .array n .parseSep :: stack ∨ t.parser.stack = .object n .parseSep :: stack

/-- The next code point begins a value in an array that has as many as it may have. -/
def StartsTooMany (p : Parser σ) (jtext : Bytes) : Prop :=
  ∃ n step stack cp, p.stack = .array n step :: stack ∧ h.maxArraySize ≤ n ∧ step ≠ .parseSep ∧
    (decode p.reader jtext).result = .ok cp ∧ cp ≠ 0x5d ∧ cp ≠ 0x2c ∧ isWhiteSpace cp = false

end

section

variable {σ : Type} {h : Handler σ} {toDouble : Bool → Bytes → Except ErrorCode UInt64} {many pends : Prop}
  {p q : Parser σ}
  {item item' : Item} {stack : List Item} {jtext seen : Bytes} {ec : Option Error} {cp n : Nat}

theorem Advances.refl (ec : Option Error) (many : Prop) (item : Item) : Advances h ec many item item := by
  cases item <;> simp [Advances]

theorem Answer.error_of_ok {a : Answer} (ha : a.ok = true) : a.error = a.ec := if_pos ha

theorem Answer.error_of_stop {a : Answer} (ha : a.ok = false) (hec : a.ec ≠ none) : a.error = some .interrupted := by
  rw [Answer.error, if_neg (by simp [ha]), ensureErrorOnHandlerFalse, if_pos (Option.isSome_iff_ne_none.2 hec)]

/-- A callback behind which the error code is what it gives. -/
theorem Calls.report {calls : List Call} {e : Event} {s : σ} (hevent : e.Within h ∨ item.Counts e)
    (hbegin : ¬e.IsBegin) :
    Calls h pends item calls (h.on s e).2.error (calls ++ [⟨e, (h.on s e).2⟩]) :=
  .one hevent Answer.error_of_ok (fun ha hec => .inl (Answer.error_of_stop ha hec)) fun _ _ he => absurd he hbegin

theorem Does.keep (hstack : q.stack = item' :: stack) (hitem : Advances h ec many item item')
    (hlastEc : q.lastEc = p.lastEc) (hbroken : q.broken = p.broken) (hstate : q.state = p.state)
    (hcalls : q.calls = p.calls) : Does h many pends p item stack q ec :=
  ⟨hlastEc, hbroken, .inl ⟨hstate, hstack ▸ .keep hitem⟩, hcalls ▸ .none⟩

/-- A turn that leaves the stack as it is. -/
theorem Does.same (hp : p.stack = item :: stack) (hstack : q.stack = p.stack) (hlastEc : q.lastEc = p.lastEc)
    (hbroken : q.broken = p.broken) (hstate : q.state = p.state) (hcalls : q.calls = p.calls) :
    Does h many pends p item stack q ec :=
  .keep (hstack.trans hp) (.refl ec many item) hlastEc hbroken hstate hcalls

theorem Does.pop (hitem : ¬item.IsDocument) (hstack : q.stack = stack) (hlastEc : q.lastEc = p.lastEc)
    (hbroken : q.broken = p.broken) (hstate : q.state = p.state) (hcalls : Calls h pends item p.calls ec q.calls) :
    Does h many pends p item stack q ec :=
  ⟨hlastEc, hbroken, .inl ⟨hstate, by rw [hstack]; exact .pop hitem⟩, hcalls⟩

/-- What `try_parse_value` may give when the item on top of the stack has advanced: when it fails the item is put back,
and the error code is kept or becomes one of syntax. -/
structure Tries (h : Handler σ) (many pends : Prop) (p : Parser σ) (item : Item) (stack : List Item) (back : Item)
    (r : Parser σ × Bool × Option Error) : Prop where
  begun : r.2.1 = true → Does h many False p item stack r.1 r.2.2
  putBack : r.2.1 = false → Does h many pends p item stack { r.1 with stack := back :: stack } r.2.2
  refused : r.2.1 = false → Does h many False p item stack { r.1 with stack := back :: stack } (some (.json .badSyntax))

theorem Does.push {new : Item} (hstack : q.stack = new :: item' :: stack) (hitem : Advances h ec many item item')
    (hcontainer : item.IsContainer) (hnew : new.Begins) (hlastEc : q.lastEc = p.lastEc) (hbroken : q.broken = p.broken)
    (hstate : q.state = p.state) (hcalls : Calls h pends item p.calls ec q.calls) :
    Does h many pends p item stack q ec :=
  ⟨hlastEc, hbroken, .inl ⟨hstate, hstack ▸ .push hitem hcontainer hnew⟩, hcalls⟩

theorem Does.putBack {back : Item} (hback : Advances h ec many item back) (hlastEc : q.lastEc = p.lastEc)
    (hbroken : q.broken = p.broken) (hstate : q.state = p.state) (hcalls : Calls h pends item p.calls ec q.calls) :
    Does h many pends p item stack { q with stack := back :: stack } ec :=
  ⟨hlastEc, hbroken, .inl ⟨hstate, .keep hback⟩, hcalls⟩

theorem beginContainer_tries {e : Event} {new back : Item} (he : e.Within h) (hnew : new.Begins)
    (hp : p.stack = item' :: stack) (hcontainer : item.IsContainer) (hitem : ∀ ec, Advances h ec many item item')
    (hback : ∀ ec, Advances h ec many item back) (hpends : (beginContainer h p e new).2.1 = false → pends) :
    Tries h many pends p item stack back (beginContainer h p e new) := by
  cases ha : (h.on p.handler e).2.ok with
  | true =>
      simp only [beginContainer, Parser.call, ha, if_true]
      exact
        { begun := fun _ => .push (by rw [hp]) (hitem _) hcontainer hnew rfl rfl rfl
            (.one (.inl he) Answer.error_of_ok (fun hno => by simp [ha] at hno) fun hno => by simp [ha] at hno)
          putBack := fun hno => by simp at hno
          refused := fun hno => by simp at hno }
  | false =>
      have hpends : pends := hpends (by simp [beginContainer, Parser.call, ha])
      simp only [beginContainer, Parser.call, ha, Bool.false_eq_true, if_false]
      have hsilent (hec : (h.on p.handler e).2.ec = none) : (h.on p.handler e).2.error = none := by
        rw [Answer.error, ha, hec]
        rfl
      exact
        { begun := fun hno => by simp at hno
          putBack := fun _ => .putBack (hback _) rfl rfl rfl (.one (.inl he) Answer.error_of_ok
            (fun ha hec => .inl (Answer.error_of_stop ha hec)) fun _ hec _ => .inr ⟨hsilent hec, hpends⟩)
          refused := fun _ => .putBack (hback _) rfl rfl rfl (.one (.inl he) (fun hok => by simp [ha] at hok)
            (fun _ _ => .inr rfl) fun _ _ _ => .inl (.inr rfl)) }

theorem tryParseValue_tries {back : Item} (hp : p.stack = item' :: stack) (hcontainer : item.IsContainer)
    (hitem : ∀ ec, Advances h ec many item item') (hback : ∀ ec, Advances h ec many item back)
    (hpends : (tryParseValue h p cp ec).2.1 = false → cp = 0x5b ∨ cp = 0x7b → pends) :
    Tries h many pends p item stack back (tryParseValue h p cp ec) := by
  have hbegun (new : Item) {q : Parser σ} (hnew : new.Begins) (hq : q.stack = new :: p.stack)
      (hlastEc : q.lastEc = p.lastEc)
      (hbroken : q.broken = p.broken) (hstate : q.state = p.state) (hcalls : q.calls = p.calls) :
      Tries h many pends p item stack back (q, true, none) :=
    { begun := fun _ => .push (by rw [hq, hp]) (hitem _) hcontainer hnew hlastEc hbroken hstate (hcalls ▸ .none)
      putBack := fun hno => by simp at hno
      refused := fun hno => by simp at hno }
  revert hpends
  unfold tryParseValue
  split
  next => exact fun _ => hbegun (.null 1) trivial rfl rfl rfl rfl rfl
  next =>
  split
  next => exact fun _ => hbegun (.bool _ 1) trivial rfl rfl rfl rfl rfl
  next =>
  split
  next => exact fun _ => hbegun (.string 0) rfl rfl rfl rfl rfl rfl
  next =>
  split
  next => exact fun _ => hbegun (.number 0 0 _) trivial rfl rfl rfl rfl rfl
  next =>
  split
  next hcp =>
    exact fun hpends =>
      beginContainer_tries trivial rfl hp hcontainer hitem hback fun hno => hpends hno (.inl hcp)
  next =>
  split
  next hcp =>
    exact fun hpends =>
      beginContainer_tries trivial rfl hp hcontainer hitem hback fun hno => hpends hno (.inr hcp)
  next =>
    exact fun _ =>
      { begun := fun hno => by simp at hno
        putBack := fun _ => .putBack (hback _) rfl rfl rfl .none
        refused := fun _ => .putBack (hback _) rfl rfl rfl .none }

theorem beginContainer_frame (p : Parser σ) (e : Event) (item : Item) :
    (beginContainer h p e item).1.reader = p.reader ∧ (beginContainer h p e item).1.numberText = p.numberText := by
  cases ha : (h.on p.handler e).2.ok with
  | true => simp [beginContainer, Parser.call, ha]
  | false => simp [beginContainer, Parser.call, ha]

theorem tryParseValue_reader (p : Parser σ) (cp : Nat) (ec : Option Error) :
    (tryParseValue h p cp ec).1.reader = p.reader := by
  unfold tryParseValue
  repeat' split
  all_goals first | rfl | exact (beginContainer_frame p _ _).1

/-! ## The parts of `match` -/

/-- What is done to a parser that differs only in what no turn depends on. -/
theorem Does.from {p' : Parser σ} (hdoes : Does h many pends p' item stack q ec) (hlastEc : p'.lastEc = p.lastEc)
    (hbroken : p'.broken = p.broken) (hstate : p'.state = p.state) (hcalls : p'.calls = p.calls) :
    Does h many pends p item stack q ec := by
  obtain ⟨hl, hb, hm, hc⟩ := hdoes
  rw [hlastEc] at hl
  rw [hbroken] at hb
  rw [hstate, hcalls] at hm
  rw [hcalls] at hc
  exact ⟨hl, hb, hm, hc⟩

theorem Does.of_never (hdoes : Does h many False p item stack q ec) : Does h many pends p item stack q ec := by
  refine ⟨hdoes.lastEc, hdoes.broken, hdoes.moves, ?_⟩
  have hcalls := hdoes.calls
  generalize q.calls = calls at hcalls ⊢
  cases hcalls with
  | none => exact .none
  | one hevent hok hstop hbegin =>
      exact .one hevent hok hstop fun hno hec he => (hbegin hno hec he).imp_right fun hnone => hnone.2.elim

theorem withCodepoint_does {act : Parser σ → Nat → Act σ} (hp : p.stack = item :: stack)
    (hact : ∀ cp, (decode p.reader jtext).result = .ok cp →
      Does h many pends p item stack (act { p with reader := (decode p.reader jtext).reader } cp).parser
        (act { p with reader := (decode p.reader jtext).reader } cp).ec) :
    Does h many pends p item stack (withCodepoint p jtext act).parser (withCodepoint p jtext act).ec := by
  cases hd : (decode p.reader jtext).result with
  | error e =>
      simp only [withCodepoint, hd]
      exact .same hp rfl rfl rfl rfl rfl
  | ok cp =>
      simp only [withCodepoint, hd]
      exact hact cp hd

theorem Act.refuse_does (hp : p.stack = item :: stack) :
    Does h many pends p item stack (Act.refuse p).parser (Act.refuse p).ec := .same hp rfl rfl rfl rfl rfl

/-- The end of an array or object. -/
theorem Act.report_does (item : Item) {e : Event} (hevent : e.Within h ∨ item.Counts e) (hbegin : ¬e.IsBegin)
    (hitem : ¬item.IsDocument) :
    Does h many pends p item stack (Act.report h { p with stack } e).parser (Act.report h { p with stack } e).ec :=
  .pop hitem rfl rfl rfl rfl (.report hevent hbegin)

theorem parseConstText_does {desired : Bytes} {e : Event} (make : Nat → Item) {parsed : Nat} (he : e.Within h)
    (hbegin : ¬e.IsBegin) (hmake : ¬(make parsed).IsDocument) (hadv : ∀ m, Advances h none many (make parsed) (make m))
    (hp : p.stack = make parsed :: stack) :
    Does h many pends p (make parsed) stack (parseConstText h desired e make parsed p stack jtext).parser
      (parseConstText h desired e make parsed p stack jtext).ec := by
  unfold parseConstText
  cases jtext with
  | nil => exact .same hp rfl rfl rfl rfl rfl
  | cons b rest =>
      dsimp only
      split
      next => exact .same hp rfl rfl rfl rfl rfl
      next =>
      split
      next => exact .pop hmake rfl rfl rfl rfl (.report (.inl he) hbegin)
      next => exact .keep rfl (hadv _) rfl rfl rfl rfl

variable (toDouble p stack) in
theorem validateAndReportNumber_does (pointPos ePos : Nat) (hasMinus : Bool) (hitem : ¬item.IsDocument) :
    Does h many pends p item stack (validateAndReportNumber h toDouble p pointPos ePos hasMinus stack).1
      (validateAndReportNumber h toDouble p pointPos ePos hasMinus stack).2 := by
  unfold validateAndReportNumber
  split
  next => exact .pop hitem rfl rfl rfl rfl .none
  next v _ =>
    have he : (numberEvent v p.numberText).Within h := by cases v <;> trivial
    have hbegin : ¬(numberEvent v p.numberText).IsBegin := by cases v <;> exact fun h => h
    exact .pop hitem rfl rfl rfl rfl (.report (.inl he) hbegin)

theorem numberCodepoint_does {pointPos ePos : Nat} {hasMinus : Bool}
    (hp : p.stack = .number pointPos ePos hasMinus :: stack) :
    Does h many pends p (.number pointPos ePos hasMinus) stack
      (numberCodepoint h toDouble pointPos ePos hasMinus stack p cp).parser
      (numberCodepoint h toDouble pointPos ePos hasMinus stack p cp).ec := by
  have hrefuse : Does h many pends p (.number pointPos ePos hasMinus) stack (Act.refuse p).parser (Act.refuse p).ec :=
    Act.refuse_does hp
  have htake (pointPos' ePos' : Nat) (hasMinus' : Bool) {text : Bytes} :
      Does h many pends p (.number pointPos ePos hasMinus) stack
      (Act.accept { p with numberText := text, stack := .number pointPos' ePos' hasMinus' :: stack }).parser
      (Act.accept { p with numberText := text, stack := .number pointPos' ePos' hasMinus' :: stack }).ec :=
    .keep rfl trivial rfl rfl rfl rfl
  unfold numberCodepoint
  dsimp only
  split
  next => split; exacts [htake _ _ _, hrefuse]
  next =>
  split
  next => split; exacts [htake _ _ _, hrefuse]
  next =>
  split
  next => split; exacts [hrefuse, htake _ _ _]
  next =>
  split
  next => split; exacts [hrefuse, htake _ _ _]
  next =>
  split
  next => exact htake _ _ _
  next => split; exacts [validateAndReportNumber_does _ _ _ _ _ _ (fun h => h), hrefuse]

theorem parseNumber_does {pointPos ePos : Nat} {hasMinus : Bool}
    (hp : p.stack = .number pointPos ePos hasMinus :: stack) :
    Does h many pends p (.number pointPos ePos hasMinus) stack
      (parseNumber h toDouble p pointPos ePos hasMinus stack seen jtext).parser
      (parseNumber h toDouble p pointPos ePos hasMinus stack seen jtext).ec :=
  withCodepoint_does hp fun _ _ =>
    (numberCodepoint_does (p := { p with reader := (decode p.reader jtext).reader }) hp).from rfl rfl rfl rfl

/-- What a kind of string needs to keep within its limit. -/
structure StringKind.Keeps (h : Handler σ) (kind : StringKind) : Prop where
  advances {n m : Nat} {ec : Option Error} {many : Prop} (hm : m = n ∨ m ≤ kind.limit ∨ ec = some kind.tooLarge) :
    Advances h ec many (kind.item n) (kind.item m)
  part (s : Bytes) (n : Nat) : (kind.part s n).Within h ∧ ¬(kind.part s n).IsBegin
  whole (s : Bytes) {n : Nat} (hn : n ≤ kind.limit) : (kind.whole s n).Within h ∧ ¬(kind.whole s n).IsBegin
  above {n m : Nat} {ec : Option Error} {many : Prop} (stack : List Item) (hm : m ≤ kind.limit) :
    Moves h ec many (kind.item n) stack (kind.above m stack)

theorem stringKind_keeps : (stringKind h).Keeps h where
  advances hm := hm
  part _ _ := ⟨trivial, fun h => h⟩
  whole _ _ hn := ⟨hn, fun h => h⟩
  above _ _ := .pop fun h => h

theorem keyKind_keeps : (keyKind h).Keeps h where
  advances hm := hm
  part _ _ := ⟨trivial, fun h => h⟩
  whole _ _ hn := ⟨hn, fun h => h⟩
  above {n m ec many} stack hm := by
    have hadv : Advances h ec many (.key n false) (.key m true) := .inr (.inl hm)
    exact .keep hadv

section

variable {kind : StringKind} {part : Bytes}

theorem deliverPart_does (hkind : kind.Keeps h) :
    Does h many pends p (kind.item n) stack (deliverPart h kind p n stack part).1
      (deliverPart h kind p n stack part).2 := by
  unfold deliverPart
  dsimp only
  split
  next => exact .keep rfl (hkind.advances (.inr (.inr rfl))) rfl rfl rfl rfl
  next hn =>
  have hadv {ec : Option Error} : Advances h ec many (kind.item n) (kind.item (n + part.length)) :=
    hkind.advances (.inr (.inl (by omega)))
  split
  next => exact .keep rfl hadv rfl rfl rfl rfl
  next => exact ⟨rfl, rfl, .inl ⟨rfl, .keep hadv⟩, .report (.inl (hkind.part _ _).1) (hkind.part _ _).2⟩

theorem deliverLast_does (hkind : kind.Keeps h) :
    Does h many pends p (kind.item n) stack (deliverLast h kind p n stack part).1
      (deliverLast h kind p n stack part).2 := by
  unfold deliverLast
  dsimp only
  split
  next => exact .keep rfl (hkind.advances (.inr (.inr rfl))) rfl rfl rfl rfl
  next hn =>
    obtain ⟨hwithin, hbegin⟩ := hkind.whole part (n := n + part.length) (by omega)
    exact ⟨rfl, rfl, .inl ⟨rfl, hkind.above _ (by omega)⟩, .report (.inl hwithin) hbegin⟩

theorem parseStringWith_does (hkind : kind.Keeps h) (hp : p.stack = kind.item n :: stack) :
    Does h many pends p (kind.item n) stack (parseStringWith h kind p n stack seen jtext).parser
      (parseStringWith h kind p n stack seen jtext).ec := by
  unfold parseStringWith
  dsimp only
  split
  next => exact .same hp rfl rfl rfl rfl rfl
  next =>
  split
  next => exact .same hp rfl rfl rfl rfl rfl
  next =>
    dsimp only
    exact (deliverPart_does hkind).from rfl rfl rfl rfl
  next =>
    dsimp only
    exact (deliverLast_does hkind).from rfl rfl rfl rfl
  next => exact .same hp rfl rfl rfl rfl rfl

end

theorem parseString_does (hp : p.stack = .string n :: stack) :
    Does h many pends p (.string n) stack (parseString h p n stack seen jtext).parser
      (parseString h p n stack seen jtext).ec :=
  parseStringWith_does (stringKind_keeps (h := h)) hp

theorem parseKey_does {parsedName : Bool} (hp : p.stack = .key n parsedName :: stack) :
    Does h many pends p (.key n parsedName) stack (parseKey h p n parsedName stack seen jtext).parser
      (parseKey h p n parsedName stack seen jtext).ec := by
  unfold parseKey
  cases parsedName with
  | false => exact parseStringWith_does (keyKind_keeps (h := h)) hp
  | true =>
      refine withCodepoint_does hp fun cp _ => ?_
      unfold colonCodepoint
      split
      next => exact .keep hp (.refl _ _ _) rfl rfl rfl rfl
      next =>
      split
      next => exact .pop (fun h => h) rfl rfl rfl rfl .none
      next => exact .same hp rfl rfl rfl rfl rfl

/-- A character of one byte is not behind others that are cached. -/
theorem decode_low (hreader : ReaderOk p.reader) (hne : jtext ≠ []) (hcp : (decode p.reader jtext).result = .ok cp)
    (hlow : cp < 0x80) :
    p.reader = [] ∧ (decode p.reader jtext).reader = [] ∧ jtext = UInt8.ofNat cp :: (decode p.reader jtext).rest := by
  obtain ⟨hreader', hdecode, -⟩ := (decode_decodesAs hreader hne).ok cp hcp
  obtain ⟨b, conts, htext, hsize, -, -, -, hone⟩ := utf8Decode_ok hdecode
  have hconts : conts = [] := by
    rw [utf8CodepointSize, if_pos (by omega)] at hone
    exact List.length_eq_zero_iff.1 (by omega)
  subst hconts
  have hnil : p.reader = [] := by
    rcases hreader with hnil | hbegun
    · exact hnil
    · cases hcached : p.reader with
      | nil => rfl
      | cons c cs =>
          rw [hcached] at hbegun htext
          obtain ⟨rfl, -⟩ := List.cons.inj htext
          have := hbegun.1
          simp only [List.length_cons, List.headD_cons, hsize, List.length_nil] at this
          omega
  rw [htext, List.nil_append, utf8Decode_ascii (utf8SequenceSize_ascii.1 hsize)] at hdecode
  have hb : b.toNat = cp := by simpa using congrArg Prod.fst hdecode
  have htext' : jtext = b :: (decode p.reader jtext).rest := by simpa only [hnil, List.nil_append] using htext
  exact ⟨hnil, hreader', by rw [← hb, UInt8.ofNat_toNat]; exact htext'⟩

theorem parseArray_does {step : ArrayStep} (hp : p.stack = .array n step :: stack) (hreader : ReaderOk p.reader)
    (hne : jtext ≠ []) :
    Does h (StartsTooMany h p jtext) (parseArray h p n step stack jtext).Pends p (.array n step) stack
      (parseArray h p n step stack jtext).parser (parseArray h p n step stack jtext).ec := by
  refine withCodepoint_does hp fun cp hcp => ?_
  unfold arrayCodepoint
  split
  next =>
    split
    next => exact .same hp rfl rfl rfl rfl rfl
    next =>
      exact (Act.report_does (p := { p with reader := (decode p.reader jtext).reader }) (e := .arrayEnd n)
        (.array n step) (.inr rfl) (fun h => h) fun h => h).from rfl rfl rfl rfl
  next hclose =>
  split
  next => exact .keep hp (.refl _ _ _) rfl rfl rfl rfl
  next hwhite =>
  split
  next =>
    split
    next => exact .keep rfl (.inl rfl) rfl rfl rfl rfl
    next => exact .same hp rfl rfl rfl rfl rfl
  next hcomma =>
  split
  next => exact .same hp rfl rfl rfl rfl rfl
  next hstep =>
  have hone (ec : Option Error) :
      Advances h ec (StartsTooMany h p jtext) (.array n step) (.array (n + 1) .parseSep) := by
    by_cases hn : n + 1 ≤ h.maxArraySize
    · exact .inr (.inl hn)
    · exact .inr (.inr ⟨n, step, stack, cp, hp, by omega, hstep, hcp, hclose, hcomma, by simpa using hwhite⟩)
  have htries : Tries h (StartsTooMany h p jtext) (parseArray h p n step stack jtext).Pends
      { p with reader := (decode p.reader jtext).reader, stack := .array (n + 1) .parseSep :: stack } (.array n step)
      stack (.array n .parseSep) (tryParseValue h
        { p with reader := (decode p.reader jtext).reader, stack := .array (n + 1) .parseSep :: stack } cp
        (if n + 1 > h.maxArraySize then some Error.arrayTooLarge else none)) :=
    tryParseValue_tries rfl trivial hone (fun ec => .inl rfl) fun hno hbracket => by
      obtain ⟨-, hnil, htext⟩ := decode_low hreader hne hcp (by omega)
      have hreader' := tryParseValue_reader (h := h)
        { p with reader := (decode p.reader jtext).reader, stack := .array (n + 1) .parseSep :: stack } cp
        (if n + 1 > h.maxArraySize then some Error.arrayTooLarge else none)
      cases htry : tryParseValue h
        { p with reader := (decode p.reader jtext).reader, stack := .array (n + 1) .parseSep :: stack } cp
        (if n + 1 > h.maxArraySize then some Error.arrayTooLarge else none) with
      | mk q r =>
      obtain ⟨ok, ec⟩ := r
      rw [htry] at hno hreader'
      cases hno
      have hturn :
          parseArray h p n step stack jtext = ⟨{ q with stack := .array n .parseSep :: stack }, [], jtext, ec⟩ := by
        simp only [parseArray, withCodepoint, hcp, arrayCodepoint, hclose, hwhite, hcomma, hstep, htry, if_false,
          Bool.false_eq_true]
      rw [hturn]
      exact
        { reader := hreader'.trans hnil
          bracket := ⟨_, _, htext, hbracket.imp (fun h => by rw [h]; rfl) fun h => by rw [h]; rfl⟩
          top := ⟨n, stack, .inl rfl⟩ }
  dsimp only
  split
  next r q ec heq =>
    have hbegun := htries.begun (by rw [heq])
    rw [heq] at hbegun
    exact hbegun.of_never.from rfl rfl rfl rfl
  next r q ec heq =>
    have hback := htries.putBack (by rw [heq])
    rw [heq] at hback
    exact hback.from rfl rfl rfl rfl

theorem parseObject_does {step : ObjectStep} (hp : p.stack = .object n step :: stack) (hreader : ReaderOk p.reader)
    (hne : jtext ≠ []) :
    Does h many (parseObject h p n step stack jtext).Pends p (.object n step) stack
      (parseObject h p n step stack jtext).parser (parseObject h p n step stack jtext).ec := by
  refine withCodepoint_does hp fun cp hcp => ?_
  unfold objectCodepoint
  split
  next =>
    split
    next => exact .same hp rfl rfl rfl rfl rfl
    next =>
      exact (Act.report_does (p := { p with reader := (decode p.reader jtext).reader }) (e := .objectEnd n)
        (.object n step) (.inr rfl) (fun h => h) fun h => h).from rfl rfl rfl rfl
  next hclose =>
  split
  next => exact .keep hp (.refl _ _ _) rfl rfl rfl rfl
  next hwhite =>
  split
  next =>
    split
    next => exact .keep rfl (.inl le_rfl) rfl rfl rfl rfl
    next => exact .same hp rfl rfl rfl rfl rfl
  next hcomma =>
  split
  next =>
    split
    next => exact .same hp rfl rfl rfl rfl rfl
    next =>
      exact .push rfl (.inl le_rfl) trivial rfl rfl rfl rfl .none
    next =>
      dsimp only
      split
      next => exact .keep rfl (.inr (.inr rfl)) rfl rfl rfl rfl
      next hn =>
        exact .push rfl (.inr (.inl (by omega))) trivial rfl rfl rfl rfl .none
  next hquote =>
  split
  next => exact .same hp rfl rfl rfl rfl rfl
  next hstep =>
  have htries : Tries h many (parseObject h p n step stack jtext).Pends
      { p with reader := (decode p.reader jtext).reader, stack := .object n .parseSep :: stack } (.object n step) stack
      (.object (n - 1) .parseSep) (tryParseValue h
        { p with reader := (decode p.reader jtext).reader, stack := .object n .parseSep :: stack } cp none) :=
    tryParseValue_tries rfl trivial (fun ec => .inl le_rfl) (fun ec => .inl (by omega)) fun hno hbracket => by
      obtain ⟨-, hnil, htext⟩ := decode_low hreader hne hcp (by omega)
      have hreader' := tryParseValue_reader (h := h)
        { p with reader := (decode p.reader jtext).reader, stack := .object n .parseSep :: stack } cp none
      cases htry : tryParseValue h
        { p with reader := (decode p.reader jtext).reader, stack := .object n .parseSep :: stack } cp none with
      | mk q r =>
      obtain ⟨ok, ec⟩ := r
      rw [htry] at hno hreader'
      cases hno
      have hturn : parseObject h p n step stack jtext =
          ⟨{ q with stack := .object (n - 1) .parseSep :: stack }, [], jtext, ec⟩ := by
        simp [parseObject, withCodepoint, hcp, objectCodepoint, hclose, hwhite, hcomma, hquote, hstep, htry]
      rw [hturn]
      exact
        { reader := hreader'.trans hnil
          bracket := ⟨_, _, htext, hbracket.imp (fun h => by rw [h]; rfl) fun h => by rw [h]; rfl⟩
          top := ⟨n - 1, stack, .inr rfl⟩ }
  split
  next r q ec heq =>
    have hbegun := htries.begun (by rw [heq])
    rw [heq] at hbegun
    exact hbegun.of_never.from rfl rfl rfl rfl
  next r q ec heq =>
    have hback := htries.putBack (by rw [heq])
    rw [heq] at hback
    exact hback.from rfl rfl rfl rfl

theorem endDocument_does (hitem : item.IsDocument) :
    Does h many pends p item stack (endDocument h p stack).1 (endDocument h p stack).2 := by
  unfold endDocument
  cases ha : (h.on p.handler .documentEnd).2.ok with
  | true =>
      simp only [Parser.call, ha, if_true]
      exact ⟨rfl, rfl, .inr ⟨hitem, rfl, _, rfl, by rw [ha]; rfl⟩, .report (.inl trivial) fun h => h⟩
  | false =>
      simp only [Parser.call, ha, Bool.false_eq_true, if_false]
      exact ⟨rfl, rfl, .inr ⟨hitem, rfl, _, rfl, by rw [ha]; rfl⟩, .report (.inl trivial) fun h => h⟩

theorem parseDocument_does (hp : p.stack = .document n :: stack) :
    Does h many pends p (.document n) stack (parseDocument h p n stack jtext).parser
      (parseDocument h p n stack jtext).ec := by
  unfold parseDocument
  split
  next => exact endDocument_does trivial
  next =>
  split
  next => exact .same hp rfl rfl rfl rfl rfl
  next cp rest _ =>
  split
  next => exact .same hp rfl rfl rfl rfl rfl
  next =>
  have htries : Tries h many True { p with stack := .document (n + 1) :: stack } (.document n) stack (.document n)
      (tryParseValue h { p with stack := .document (n + 1) :: stack } cp none) :=
    tryParseValue_tries rfl trivial (fun ec => trivial) (fun ec => trivial) fun _ _ => trivial
  split
  next r q ec heq =>
    have hbegun := htries.begun (by rw [heq])
    rw [heq] at hbegun
    exact hbegun.of_never.from rfl rfl rfl rfl
  next r q ec heq =>
    have hback := htries.refused (by rw [heq])
    rw [heq] at hback
    exact hback.of_never.from rfl rfl rfl rfl

variable (h toDouble seen) in
theorem turn_does (hp : p.stack = item :: stack) (hreader : ReaderOk p.reader) (hne : jtext ≠ []) :
    Does h (StartsTooMany h p jtext) (turn h toDouble p seen jtext).Pends p item stack
      (turn h toDouble p seen jtext).parser
      (turn h toDouble p seen jtext).ec := by
  unfold turn
  rw [hp]
  cases item with
  | document n => exact parseDocument_does hp
  | null parsed => exact parseConstText_does .null trivial (fun h => h) (fun h => h) (fun _ => trivial) hp
  | bool b parsed => exact parseConstText_does (.bool b) trivial (fun h => h) (fun h => h) (fun _ => trivial) hp
  | number pointPos ePos hasMinus => exact parseNumber_does hp
  | string n => exact parseString_does hp
  | key n parsedName => exact parseKey_does hp
  | array n step => exact parseArray_does hp hreader hne
  | object n step => exact parseObject_does hp hreader hne

/-- The parts of a text that goes on, at the end of a text. -/
theorem flush_does (hp : p.stack = item :: stack) :
    Does h many pends p item stack (flush h p seen).1 (flush h p seen).2 := by
  unfold flush
  split
  next => exact .same hp rfl rfl rfl rfl rfl
  next =>
  rw [hp]
  split
  next n stack' heq =>
    obtain ⟨rfl, rfl⟩ := List.cons.inj heq
    exact deliverPart_does (stringKind_keeps (h := h))
  next n stack' heq =>
    obtain ⟨rfl, rfl⟩ := List.cons.inj heq
    exact deliverPart_does (keyKind_keeps (h := h))
  next heq =>
    obtain ⟨rfl, rfl⟩ := List.cons.inj heq
    exact ⟨rfl, rfl, .inl ⟨rfl, hp ▸ .keep (.refl _ _ _)⟩, .report (.inl trivial) fun h => h⟩
  next => exact .same hp rfl rfl rfl rfl rfl

end

end Rad.Json.Sax
