import Rad.Text.Utf
import Rad.Json.Lemmas.Tokens

/-!
# The parser and the scanner

Between two turns of the parser the scanner knows where it is: outside of the strings, or how much of a string, of an
escape and of a character it has.
-/

namespace Rad.Json

/-! ## Where a text is cut

A scanner that looks at one byte after the other, and knows of a JSON text only where the strings in it are. What a chunk
ends in is the state of the scanner there.
-/

/-- Where a scanner is; `plain` is whether there are characters of the string between the last quotation mark, escape or
end of a chunk and the place where it is. -/
inductive Lex where
  | outside
  | text (plain : Bool)
  | escape
  | hex (missing : Nat)
  /-- Inside the bytes of a character. -/
  | sequence (missing : Nat) (plain : Bool)
  /-- Inside the bytes of a character that an earlier chunk begins. -/
  | carried (missing : Nat)
  deriving DecidableEq

namespace Lex

def step (s : Lex) (b : UInt8) : Lex :=
  match s with
  | outside => if b = 0x22 then text false else outside
  | text plain =>
    if b = 0x22 then outside
    else if b = 0x5c then escape
    else if b < 0x80 then text true
    else sequence (utf8SequenceSize b - 1) plain
  | escape => if b = 0x75 then hex 4 else text false
  | hex missing => if missing ≤ 1 then text false else hex (missing - 1)
  | sequence missing plain => if missing ≤ 1 then text true else sequence (missing - 1) plain
  | carried missing => if missing ≤ 1 then text false else carried (missing - 1)

def scan (s : Lex) (t : Bytes) : Lex := t.foldl step s

/-- The end of a chunk. -/
def cut : Lex → Lex
  | text _ => text false
  | sequence missing _ => carried missing
  | s => s

/-- Inside the bytes of a character, with characters of the string before it. -/
def behindPlain : Lex → Bool
  | sequence _ plain => plain
  | _ => false

end Lex

variable {toDouble : Bool → Bytes → Except ErrorCode UInt64}

/-! ## The stack of the parser -/

/-- The document, and the arrays and objects in it that are not over. -/
inductive Nested : List Item → Prop where
  | document (n : Nat) : Nested [.document n]
  | array {stack : List Item} (n : Nat) (step : ArrayStep) (h : Nested stack) : Nested (.array n step :: stack)
  | object {stack : List Item} (n : Nat) (step : ObjectStep) (h : Nested stack) : Nested (.object n step :: stack)

/-- What is neither the document nor an array nor an object. -/
def Item.IsLeaf : Item → Prop
  | .document _ => False
  | .array _ _ => False
  | .object _ _ => False
  | _ => True

/-- On top of what is nested there may be a value that is read. -/
def StackOk (stack : List Item) : Prop := Nested stack ∨ ∃ item below, stack = item :: below ∧ item.IsLeaf ∧ Nested below

theorem StackOk.ne_nil {stack : List Item} (h : StackOk stack) : stack ≠ [] := by
  rintro rfl
  rcases h with h | ⟨_, _, h, -⟩ <;> cases h

theorem StackOk.below {item : Item} {stack : List Item} (h : StackOk (item :: stack)) (hleaf : item.IsLeaf) :
    Nested stack := by
  rcases h with h | ⟨item', below, heq, -, hbelow⟩
  · cases h <;> exact hleaf.elim
  · cases heq
    exact hbelow

theorem StackOk.nested {item : Item} {stack : List Item} (h : StackOk (item :: stack)) (hleaf : ¬item.IsLeaf) :
    Nested (item :: stack) := by
  rcases h with h | ⟨item', below, heq, hleaf', -⟩
  · exact h
  · cases heq
    exact absurd hleaf' hleaf

theorem Nested.leaf {stack : List Item} (h : Nested stack) {item : Item} (hleaf : item.IsLeaf) : StackOk (item :: stack) :=
  .inr ⟨item, stack, rfl, hleaf, h⟩

theorem Nested.notString {p : Parser} (h : Nested p.stack) : ¬InString p := by
  intro hstring
  rw [InString] at hstring
  cases hstack : p.stack with
  | nil => simp [hstack] at hstring
  | cons item stack =>
      rw [hstack] at h hstring
      cases h <;> exact hstring

/-! ## Between strings and within them -/

/-- Outside of the strings there is nothing left over. -/
structure Between (p : Parser) : Prop where
  stackOk : StackOk p.stack
  notString : ¬InString p
  esc : p.esc = .none
  reader : p.reader = []

structure Within (p : Parser) : Prop where
  stackOk : StackOk p.stack
  inString : InString p
  readerOk : ReaderOk p.reader

theorem Between.nested {p : Parser} (h : Nested p.stack) (hesc : p.esc = .none) (hreader : p.reader = []) : Between p :=
  ⟨.inl h, h.notString, hesc, hreader⟩

/-- Behind the beginning of a value. -/
theorem tryParseValue_begins {p q : Parser} {cp : Nat} (h : tryParseValue p cp = some q) (hnested : Nested p.stack)
    (hesc : p.esc = .none) (hreader : p.reader = []) :
    (cp = 0x22 ∧ Within q ∧ q.esc = .none ∧ q.reader = []) ∨ (cp < 0x80 ∧ cp ≠ 0x22 ∧ Between q) := by
  simp only [tryParseValue] at h
  split at h
  · rename_i hcp
    cases h
    exact .inr ⟨by omega, by omega, hnested.leaf trivial, id, hesc, hreader⟩
  split at h
  · rename_i hcp
    cases h
    exact .inr ⟨by omega, by omega, hnested.leaf trivial, id, hesc, hreader⟩
  split at h
  · rename_i hcp
    cases h
    exact .inl ⟨hcp, ⟨hnested.leaf trivial, trivial, .inl hreader⟩, rfl, hreader⟩
  split at h
  · rename_i hquote hcp
    cases h
    exact .inr ⟨by omega, hquote, hnested.leaf trivial, id, hesc, hreader⟩
  split at h
  · rename_i hcp
    cases h
    exact .inr ⟨by omega, by omega, .nested (.array 0 .mayParseValue hnested) hesc hreader⟩
  split at h
  · rename_i hcp
    cases h
    exact .inr ⟨by omega, by omega, .nested (.object 0 .mayParseKey hnested) hesc hreader⟩
  · cases h

/-- What an act on a code point leads to when it makes no error. Where it leaves the code point a number is over. -/
def Leads (cp : Nat) (a : Act) : Prop :=
  a.ec = none →
    (a.consumed = false ∧ Between a.parser) ∨
    (a.consumed = true ∧ cp = 0x22 ∧ Within a.parser ∧ a.parser.esc = .none ∧ a.parser.reader = []) ∨
    (a.consumed = true ∧ cp < 0x80 ∧ cp ≠ 0x22 ∧ Between a.parser)

theorem Leads.refuse (cp : Nat) (p : Parser) : Leads cp (.refuse p) := nofun

theorem Leads.accept {cp : Nat} {p : Parser} (hcp : cp < 0x80 ∧ cp ≠ 0x22) (h : Between p) : Leads cp (.accept p) :=
  fun _ => .inr (.inr ⟨rfl, hcp.1, hcp.2, h⟩)

theorem Leads.begins {p q : Parser} {cp : Nat} (h : tryParseValue p cp = some q) (hnested : Nested p.stack)
    (hesc : p.esc = .none) (hreader : p.reader = []) : Leads cp (.accept q) := by
  intro _
  rcases tryParseValue_begins h hnested hesc hreader with ⟨hcp, hwithin, hesc', hreader'⟩ | ⟨hlow, hcp, hbetween⟩
  · exact .inr (.inl ⟨rfl, hcp, hwithin, hesc', hreader'⟩)
  · exact .inr (.inr ⟨rfl, hlow, hcp, hbetween⟩)

section

variable {p : Parser} {stack : List Item} {cp n : Nat}

theorem numberCodepoint_leads {pointPos ePos : Nat} {hasMinus : Bool} (h : Between p) (hnested : Nested stack) :
    Leads cp (numberCodepoint toDouble pointPos ePos hasMinus stack p cp) := by
  have htake : cp < 0x80 ∧ cp ≠ 0x22 → ∀ text item, item.IsLeaf → (∀ q : Parser, q.stack = item :: stack → ¬InString q) →
      Leads cp (.accept { p with numberText := text, stack := item :: stack }) :=
    fun hcp text item hleaf hitem => .accept hcp ⟨hnested.leaf hleaf, hitem _ rfl, h.esc, h.reader⟩
  have hnumber : ∀ a b c, ∀ q : Parser, q.stack = .number a b c :: stack → ¬InString q := by
    intro a b c q hq
    simp [InString, hq]
  simp only [numberCodepoint]
  split
  · rename_i hcp
    split
    · exact htake (by omega) _ _ trivial (hnumber _ _ _)
    · exact .refuse _ _
  split
  · rename_i hcp
    split
    · exact htake (by omega) _ _ trivial (hnumber _ _ _)
    · exact .refuse _ _
  split
  · rename_i hcp
    split
    · exact .refuse _ _
    · exact htake (by omega) _ _ trivial (hnumber _ _ _)
  split
  · rename_i hcp
    split
    · exact .refuse _ _
    · exact htake (by omega) _ _ trivial (hnumber _ _ _)
  split
  · rename_i hcp
    exact htake (by omega) _ _ trivial (hnumber _ _ _)
  split
  · simp only [validateAndReportNumber]
    split
    · (intro h; cases h)
    · exact fun _ => .inl ⟨rfl, .nested hnested h.esc h.reader⟩
  · exact .refuse _ _

theorem isWhiteSpace_low (h : isWhiteSpace cp = true) : cp < 0x80 ∧ cp ≠ 0x22 := by
  simp only [isWhiteSpace, Bool.or_eq_true, beq_iff_eq] at h
  omega

theorem colonCodepoint_leads (h : Between p) (hnested : Nested stack) : Leads cp (colonCodepoint stack p cp) := by
  rw [colonCodepoint]
  split
  · exact .accept (isWhiteSpace_low ‹_›) h
  split
  · exact .accept (by omega) (.nested hnested h.esc h.reader)
  · exact .refuse _ _

theorem arrayCodepoint_leads {step : ArrayStep} (h : Between p) (hnested : Nested stack) :
    Leads cp (arrayCodepoint n step stack p cp) := by
  have harray : ∀ n step, Nested (.array n step :: stack) := fun n step => .array n step hnested
  rw [arrayCodepoint]
  split
  · split
    · exact .refuse _ _
    split
    · exact .accept (by omega) (.nested hnested h.esc h.reader)
    · (intro h; cases h)
  split
  · exact .accept (isWhiteSpace_low ‹_›) h
  split
  · split
    · exact .accept (by omega) (.nested (harray _ _) h.esc h.reader)
    · exact .refuse _ _
  split
  · exact .refuse _ _
  split
  · rename_i htry
    exact .begins htry (harray _ _) h.esc h.reader
  · exact .refuse _ _

theorem objectCodepoint_leads {step : ObjectStep} (h : Between p) (hnested : Nested stack) :
    Leads cp (objectCodepoint n step stack p cp) := by
  have hobject : ∀ n step, Nested (.object n step :: stack) := fun n step => .object n step hnested
  have hquote : cp = 0x22 → ∀ item n step, item.IsLeaf →
      InString { p with stack := item :: .object n step :: stack } →
      Leads cp (.accept { p with stack := item :: .object n step :: stack }) :=
    fun hcp item n step hleaf hstring _ =>
      .inr (.inl ⟨rfl, hcp, ⟨(hobject n step).leaf hleaf, hstring, .inl h.reader⟩, h.esc, h.reader⟩)
  unfold objectCodepoint
  split
  · split
    · exact .refuse _ _
    split
    · exact .accept (by omega) (.nested hnested h.esc h.reader)
    · nofun
  split
  · exact .accept (isWhiteSpace_low ‹_›) h
  split
  · split
    · exact .accept (by omega) (.nested (hobject _ _) h.esc h.reader)
    · exact .refuse _ _
  split
  · rename_i hcp
    split
    · exact .refuse _ _
    · exact hquote hcp _ _ _ trivial trivial
    · exact hquote hcp _ _ _ trivial trivial
  split
  · exact .refuse _ _
  split
  · rename_i htry
    exact .begins htry (hobject _ _) h.esc h.reader
  · exact .refuse _ _

end

/-! ## Turns -/

/-- What a turn between strings leads to: it leaves the text or consumes one byte of it. -/
def TurnLeads (jtext : Bytes) (t : Turn) : Prop :=
  t.seen = [] ∧
    ((t.rest = jtext ∧ (t.parser.state = .done ∨ Between t.parser)) ∨
      ∃ b, b < 0x80 ∧ jtext = b :: t.rest ∧
        ((b = 0x22 ∧ Within t.parser ∧ t.parser.esc = .none ∧ t.parser.reader = []) ∨ (b ≠ 0x22 ∧ Between t.parser)))

theorem withCodepoint_leads {p : Parser} {jtext : Bytes} {act : Parser → Nat → Act} (h : Between p) (hne : jtext ≠ [])
    (hact : ∀ cp, Leads cp (act p cp)) (hec : (withCodepoint p jtext act).ec = none) :
    TurnLeads jtext (withCodepoint p jtext act) := by
  have hd := @decode_decodesAs p.reader _ (.inl h.reader) hne
  refine ⟨withCodepoint_seen p jtext act, ?_⟩
  cases hresult : (decode p.reader jtext).result with
  | error e => simp [withCodepoint, hresult] at hec
  | ok cp =>
      obtain ⟨hreader, hdecode, -⟩ := hd.ok cp hresult
      have hp : ({ p with reader := (decode p.reader jtext).reader } : Parser) = p := by rw [hreader, ← h.reader]
      have hturn : withCodepoint p jtext act =
          ⟨(act p cp).parser, [], if (act p cp).consumed then (decode p.reader jtext).rest else jtext, (act p cp).ec⟩ := by
        simp only [withCodepoint, hresult, hp]
      rw [hturn] at hec ⊢
      rw [h.reader, List.nil_append, ← h.reader] at hdecode
      rcases hact cp hec with ⟨hconsumed, hbetween⟩ | ⟨hconsumed, hcp, hwithin, hesc, hreader⟩ |
        ⟨hconsumed, hlow, hcp, hbetween⟩
      · exact .inl ⟨by simp [hconsumed], .inr hbetween⟩
      · obtain ⟨b, hascii, htext, hb⟩ := utf8Decode_low hdecode (by omega)
        refine .inr ⟨b, hascii, by simpa [hconsumed] using htext, .inl ⟨UInt8.toNat_inj.1 (hb.trans hcp), hwithin, hesc, hreader⟩⟩
      · obtain ⟨b, hascii, htext, hb⟩ := utf8Decode_low hdecode hlow
        refine .inr ⟨b, hascii, by simpa [hconsumed] using htext, .inr ⟨?_, hbetween⟩⟩
        rintro rfl
        exact hcp hb.symm

theorem parseConstText_leads {desired : Bytes} {v : Value} {item : Nat → Item} {parsed : Nat} {p : Parser}
    {stack : List Item} {jtext : Bytes} (h : Between p) (hnested : Nested stack) (hne : jtext ≠ [])
    (hitem : ∀ n, StackOk (item n :: stack) ∧ ¬InString { p with stack := item n :: stack })
    (hdesired : ∀ b ∈ desired, b < 0x80 ∧ b ≠ 0x22)
    (hec : (parseConstText desired v item parsed p stack jtext).ec = none) :
    TurnLeads jtext (parseConstText desired v item parsed p stack jtext) := by
  obtain ⟨b, rest, rfl⟩ := List.exists_cons_of_ne_nil hne
  rw [parseConstText] at hec ⊢
  split at hec
  · cases hec
  rename_i hsame
  rw [ne_eq, Decidable.not_not] at hsame
  obtain ⟨hascii, hb⟩ := hdesired b (List.mem_of_getElem? hsame)
  rw [if_neg (by simpa using hsame)]
  split
  · exact ⟨rfl, .inr ⟨b, hascii, rfl, .inr ⟨hb, .nested hnested h.esc h.reader⟩⟩⟩
  · exact ⟨rfl, .inr ⟨b, hascii, rfl, .inr ⟨hb, (hitem _).1, (hitem _).2, h.esc, h.reader⟩⟩⟩

theorem parseDocument_leads {p : Parser} {n : Nat} {stack : List Item} {jtext : Bytes} (h : Between p)
    (hnil : stack = []) (hec : (parseDocument p n stack jtext).ec = none) : TurnLeads jtext (parseDocument p n stack jtext) := by
  simp only [parseDocument] at hec ⊢
  split
  · exact ⟨rfl, .inl ⟨rfl, .inl rfl⟩⟩
  rename_i hn
  rw [if_neg hn] at hec
  rcases hdecode : utf8Decode jtext with ⟨result, rest⟩
  rw [hdecode] at hec
  cases result with
  | error e => cases hec
  | ok cp =>
      dsimp only at hec ⊢
      split
      · rename_i hwhite
        obtain ⟨b, hascii, htext, hb⟩ := utf8Decode_low hdecode (isWhiteSpace_low hwhite).1
        refine ⟨rfl, .inr ⟨b, hascii, htext, .inr ⟨?_, h⟩⟩⟩
        rintro rfl
        exact (isWhiteSpace_low hwhite).2 hb.symm
      · rename_i hwhite
        rw [if_neg hwhite] at hec
        split
        · rename_i q htry
          have hdocument : Nested (.document (n + 1) :: stack) := hnil ▸ .document (n + 1)
          rcases tryParseValue_begins htry hdocument h.esc h.reader with ⟨hcp, hwithin, hesc, hreader⟩ |
            ⟨hlow, hcp, hbetween⟩
          · obtain ⟨b, hascii, htext, hb⟩ := utf8Decode_low hdecode (by omega)
            exact ⟨rfl, .inr ⟨b, hascii, htext, .inl ⟨UInt8.toNat_inj.1 (hb.trans hcp), hwithin, hesc, hreader⟩⟩⟩
          · obtain ⟨b, hascii, htext, hb⟩ := utf8Decode_low hdecode hlow
            refine ⟨rfl, .inr ⟨b, hascii, htext, .inr ⟨?_, hbetween⟩⟩⟩
            rintro rfl
            exact hcp hb.symm
        · rename_i htry
          rw [htry] at hec
          cases hec

theorem Between.turn_leads {p : Parser} {jtext : Bytes} (h : Between p) (hne : jtext ≠ [])
    (hec : (turn toDouble p [] jtext).ec = none) : TurnLeads jtext (turn toDouble p [] jtext) := by
  cases hstack : p.stack with
  | nil => exact absurd hstack h.stackOk.ne_nil
  | cons item stack =>
      have hok : StackOk (item :: stack) := hstack ▸ h.stackOk
      cases item with
      | document n =>
          have hnil : stack = [] := by cases hok.nested id; rfl
          simp only [turn, hstack] at hec ⊢
          exact parseDocument_leads h hnil hec
      | null parsed =>
          have hnested := hok.below trivial
          simp only [turn, hstack] at hec ⊢
          exact parseConstText_leads h hnested hne (fun n => ⟨hnested.leaf trivial, id⟩)
            (@of_decide_eq_true _ (List.decidableBAll _ _) rfl) hec
      | bool b parsed =>
          have hnested := hok.below trivial
          simp only [turn, hstack] at hec ⊢
          exact parseConstText_leads h hnested hne (fun n => ⟨hnested.leaf trivial, id⟩)
            (by cases b <;> exact @of_decide_eq_true _ (List.decidableBAll _ _) rfl) hec
      | number pointPos ePos hasMinus =>
          simp only [turn, hstack] at hec ⊢
          exact withCodepoint_leads h hne (fun cp => numberCodepoint_leads h (hok.below trivial)) hec
      | string => exact absurd (by simp [InString, hstack]) h.notString
      | key parsedName =>
          cases parsedName with
          | false => exact absurd (by simp [InString, hstack]) h.notString
          | true =>
              simp only [turn, hstack, parseKey, if_true] at hec ⊢
              exact withCodepoint_leads h hne (fun cp => colonCodepoint_leads h (hok.below trivial)) hec
      | array n step =>
          have hnested : Nested stack := by cases hok.nested id; assumption
          simp only [turn, hstack] at hec ⊢
          exact withCodepoint_leads h hne (fun cp => arrayCodepoint_leads h hnested) hec
      | object n step =>
          have hnested : Nested stack := by cases hok.nested id; assumption
          simp only [turn, hstack] at hec ⊢
          exact withCodepoint_leads h hne (fun cp => objectCodepoint_leads h hnested) hec

end Rad.Json
