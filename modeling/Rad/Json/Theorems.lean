import Mathlib.Data.List.TakeWhile
import Rad.Json.Lemmas.Documents
import Rad.Json.Lemmas.Equal
import Rad.Json.Lemmas.Run
import Rad.Json.Lemmas.Serializer

/-!
# Theorems: texts and values

`json::parse` gives for a JSON text the value that it denotes.
-/

namespace Rad.Json

section

variable {toDouble : Bool → Bytes → Except ErrorCode UInt64}

/-! ## The document -/

theorem clean_start : Clean ({} : Parser).start := ⟨rfl, rfl, rfl, rfl, rfl⟩

/-- The parser with a document in which there is a value. -/
def Parser.found (v : Value) : Parser := { ({} : Parser).start with stack := [.document 1] }.pushed v

theorem run_found {v : Value} {rest : Bytes} (hne : rest ≠ []) :
    run toDouble (Parser.found v) rest = ⟨{ Parser.found v with stack := [], state := .done }, [], rest, none⟩ := by
  have ht : turn toDouble (Parser.found v) [] rest =
      ⟨{ Parser.found v with stack := [], state := .done }, [], rest, none⟩ := rfl
  rw [run_step rfl rfl hne ht, flush_nil, run_stop (.inr rfl)]

/-- Behind the value there is white space to the end of the text. -/
theorem parse_found {t ws : Bytes} {v : Value} (hws : WhiteSpace ws)
    (h : run toDouble ({} : Parser).start t = run toDouble (Parser.found v) ws) : parse toDouble t = .ok v := by
  rcases eq_or_ne ws [] with rfl | hne
  · rw [run_nil] at h
    rw [parse_eq (by rw [h]), h]
    rfl
  · rw [run_found hne] at h
    rw [parse_eq (by rw [h]), h, if_pos (List.dropWhile_eq_nil_iff.2 hws)]
    rfl

/-- A JSON text whose root is no number and whose numbers are integers is parsed to the value that it denotes. -/
theorem parses_to_meaning {t : Bytes} {j : Meaning} (ht : DocumentText t j) (hroot : j.NotNumber) :
    parse toDouble t = .ok j.value := by
  obtain ⟨ws, t', ws', hws, htext, hws', rfl⟩ := ht
  refine parse_found hws' ?_
  rw [run_white clean_start trivial hws, reads_of_text htext ws' (awaits_document clean_start rfl) (.inl hroot)]
  rfl

theorem parses_to_meaning_object :
    parse (fun _ _ => .error .numberTooLarge) (ascii " \x7b\"k\":1,\"k\":[-2,\"\\ud83d\\ude00\"]\x7d") =
      .ok (Meaning.object [(['k'], .int 1), (['k'], .array [.int (-2), .string ['😀']])]).value := by
  have hwhite : WhiteSpace [] := nofun
  have hkey : StringText (ascii "k") ['k'] := .cons (@CharText.unescaped 'k' (by decide) (by decide) (by decide)) .nil
  have hone : IntegerText (ascii "1") 1 := .plain (by decide)
  have htwo : IntegerText (ascii "-2") (-2) := .minus (by decide)
  have hsmile : StringText (ascii "\\ud83d\\ude00") ['😀'] :=
    .cons (@CharText.pair (ascii "d83d") (ascii "de00") _ (by decide) (by decide) (by decide) (by decide)) .nil
  have helements : Text (.elements [.int (-2), .string ['😀']]) (ascii "-2,\"\\ud83d\\ude00\"]") :=
    .element hwhite (.int htwo (by decide)) hwhite (.lastElement hwhite (.string hsmile) hwhite)
  have hmembers : Text (.members [(['k'], .int 1), (['k'], .array [.int (-2), .string ['😀']])])
      (ascii "\"k\":1,\"k\":[-2,\"\\ud83d\\ude00\"]\x7d") :=
    .member hwhite hkey hwhite hwhite (.int hone (by decide)) hwhite
      (.lastMember hwhite hkey hwhite hwhite (.array helements) hwhite)
  exact parses_to_meaning ⟨ascii " ", _, [], by decide, .object hmembers, hwhite, rfl⟩ trivial

end

/-! ## Reading a serializer in pieces

`read_into` with buffers of any sizes gives the text that `json::serialize` gives, cut where the buffers end.
-/

section

variable {opts : SerializeOptions} {doubleToChars : UInt64 → Option Bytes}

/-! ## Runs of calls -/

namespace Serializer

variable {s : Serializer}

@[simp] theorem readInto_opts (n : Nat) : (s.readInto doubleToChars n).1.opts = s.opts := rfl

/-- Calls one after the other write the text of the stack from its beginning, and leave what is behind. -/
theorem reads_ok {sizes : List Nat} (hok : ∀ e ∈ s.stack, e.Ok s.opts) :
    (s.reads doubleToChars sizes).1.opts = s.opts ∧
    (∀ e ∈ (s.reads doubleToChars sizes).1.stack, e.Ok s.opts) ∧
    (s.reads doubleToChars sizes).2.flatten = (pendingText s.opts doubleToChars s.stack).take sizes.sum ∧
    pendingText s.opts doubleToChars (s.reads doubleToChars sizes).1.stack =
      (pendingText s.opts doubleToChars s.stack).drop sizes.sum := by
  induction sizes generalizing s with
  | nil => exact ⟨rfl, hok, rfl, rfl⟩
  | cons n sizes ih =>
      obtain ⟨hpiece, hrest, hok'⟩ := @readInto_ok doubleToChars s n hok
      obtain ⟨hopts, hoks, hpieces, hleft⟩ := @ih (s.readInto doubleToChars n).1 hok'
      rw [readInto_opts] at hopts hoks hpieces hleft
      refine ⟨hopts, hoks, ?_, ?_⟩
      · rw [reads, List.flatten_cons, hpieces, hpiece, hrest, List.sum_cons, List.take_add]
      · rw [reads, hleft, hrest, List.drop_drop, List.sum_cons]

theorem reset_ok {v : Value} (hv : v.NoDouble) : ∀ e ∈ (reset doubleToChars opts v).stack, e.Ok opts := by
  intro e he
  obtain rfl := List.mem_singleton.1 he
  exact makeItemTypeFromValue_ok hv

theorem pendingText_reset {v : Value} (hv : v.NoDouble) :
    pendingText opts doubleToChars (reset doubleToChars opts v).stack = v.text opts doubleToChars := by
  simp [reset, makeItemTypeFromValue_pending hv]

end Serializer

/-- The loop of `serialize_value` collects what is left to write. -/
theorem returns_serializePass {s : Serializer} {result : Bytes} (hok : ∀ e ∈ s.stack, e.Ok s.opts) :
    Lib.Returns (serializePass doubleToChars) (s, result) (result ++ pendingText s.opts doubleToChars s.stack) := by
  -- the induction is on the number of bytes that are left
  induction hn : (pendingText s.opts doubleToChars s.stack).length using Nat.strongRecOn generalizing s result with
  | ind n ih =>
      have hdone := @Serializer.done_iff doubleToChars s hok
      cases hs : s.done with
      | true =>
          rw [hdone.1 hs, List.append_nil]
          exact .done (by simp [serializePass, hs])
      | false =>
          have hne : pendingText s.opts doubleToChars s.stack ≠ [] := fun h => by simp [hdone.2 h] at hs
          have hpos := List.length_pos_of_ne_nil hne
          obtain ⟨hpiece, hrest, hok'⟩ := @Serializer.readInto_ok doubleToChars s 4096 hok
          have hlt : (pendingText s.opts doubleToChars (s.readInto doubleToChars 4096).1.stack).length < n := by
            rw [hrest, List.length_drop]
            omega
          refine .next (t := ((s.readInto doubleToChars 4096).1, result ++ (s.readInto doubleToChars 4096).2))
            (by simp [serializePass, hs]) ?_
          have h := @ih _ hlt (s.readInto doubleToChars 4096).1 (result ++ (s.readInto doubleToChars 4096).2) hok' rfl
          have htext : (s.readInto doubleToChars 4096).2 ++
              pendingText s.opts doubleToChars (s.readInto doubleToChars 4096).1.stack =
                pendingText s.opts doubleToChars s.stack := by
            rw [hpiece, hrest, List.take_append_drop]
          rwa [Serializer.readInto_opts, List.append_assoc, htext] at h

theorem serializes_text {v : Value} (hv : v.NoDouble) : Serializes doubleToChars opts v (v.text opts doubleToChars) := by
  have h := @returns_serializePass doubleToChars (Serializer.reset doubleToChars opts v) [] (Serializer.reset_ok hv)
  rwa [List.nil_append, show (Serializer.reset doubleToChars opts v).opts = opts from rfl,
    Serializer.pendingText_reset hv] at h

/-! ## Independence of the buffer sizes -/

/-- `json::serialize` returns, and reads with buffers of any sizes give the beginning of its text: as many bytes as the
buffers hold, to the end of it, and the serializer is done when that is reached. A call on a serializer that is not done
writes something and no more than fits. -/
theorem reads_independent_of_sizes (doubleToChars : UInt64 → Option Bytes) (opts : SerializeOptions) (v : Value)
    (hv : v.NoDouble) :
    ∃ text, Serializes doubleToChars opts v text ∧
      ∀ sizes : List Nat,
        let r := (Serializer.reset doubleToChars opts v).reads doubleToChars sizes
        r.2.flatten = text.take sizes.sum ∧
        (r.1.done = true ↔ text.length ≤ sizes.sum) ∧
        (r.1.done = true → r.2.flatten = text) ∧
        ∀ n, 0 < n → r.1.done = false →
          0 < (r.1.readInto doubleToChars n).2.length ∧ (r.1.readInto doubleToChars n).2.length ≤ n := by
  refine ⟨_, serializes_text hv, fun sizes => ?_⟩
  obtain ⟨hopts, hok, hpieces, hleft⟩ :=
    @Serializer.reads_ok doubleToChars (Serializer.reset doubleToChars opts v) sizes (Serializer.reset_ok hv)
  have hreset : (Serializer.reset doubleToChars opts v).opts = opts := rfl
  rw [hreset] at hopts hok hpieces hleft
  rw [Serializer.pendingText_reset hv] at hpieces hleft
  generalize (Serializer.reset doubleToChars opts v).reads doubleToChars sizes = r at hopts hok hpieces hleft ⊢
  have hok' : ∀ e ∈ r.1.stack, e.Ok r.1.opts := by rwa [hopts]
  have hdone : r.1.done = true ↔ (v.text opts doubleToChars).length ≤ sizes.sum := by
    rw [@Serializer.done_iff doubleToChars r.1 hok', hopts, hleft, List.drop_eq_nil_iff]
  refine ⟨hpieces, hdone, fun h => ?_, fun n hn hopen => ?_⟩
  · rw [hpieces, List.take_of_length_le (hdone.1 h)]
  · obtain ⟨hpiece, -, -⟩ := @Serializer.readInto_ok doubleToChars r.1 n hok'
    have hlt : ¬(v.text opts doubleToChars).length ≤ sizes.sum := fun h => by simp [hdone.2 h] at hopen
    rw [hpiece, hopts, hleft, List.length_take, List.length_drop]
    omega

theorem reads_independent_of_sizes_escape :
    (Value.string [0x01, 0x2f]).NoDouble ∧
      ∃ text, Serializes (fun _ => none) { escapeSolidus := true } (.string [0x01, 0x2f]) text ∧
        ((Serializer.reset (fun _ => none) { escapeSolidus := true } (.string [0x01, 0x2f])).reads (fun _ => none)
          [1, 3, 2, 2, 1, 9]).2.flatten = text.take 18 := by
  obtain ⟨text, htext, h⟩ := reads_independent_of_sizes (fun _ => none) { escapeSolidus := true } (.string [0x01, 0x2f])
    trivial
  exact ⟨trivial, text, htext, (h [1, 3, 2, 2, 1, 9]).1⟩

end

/-! ## Writing a value and reading it again

What is serialized is parsed to what is read back. That is the value, unless one of its strings or keys has a control
character that is written as another one, and unless the value is a number, behind which the parser is not defined.
-/

variable {toDouble : Bool → Bytes → Except ErrorCode UInt64} {doubleToChars : UInt64 → Option Bytes} {opts : SerializeOptions}

/-- A number that is the whole text. -/
theorem parse_integer {t : Bytes} {i : Int} (ht : IntegerText t i) (hrange : -2 ^ 63 ≤ i ∧ i < 2 ^ 64) :
    parse toDouble t = .error .undefined := by
  have hawaits := @awaits_document toDouble ({} : Parser).start [] clean_start rfl
  obtain ⟨minus, hdigit, hv, hrun⟩ := hawaits.run_number ht hrange
  have h := hrun []
  rw [List.append_nil, run_nil] at h
  rw [parse_eq (by rw [h]), h]
  simp only [List.dropWhile_nil, if_true, Parser.outcome, Parser.finish, Parser.start, reduceCtorEq, if_false,
    ne_eq, not_true_eq_false, hdigit, validateAndReportNumber, hv]

/-- `json::parse(json::serialize(v))` is equal to `v`. -/
def RoundTrips (toDouble : Bool → Bytes → Except ErrorCode UInt64) (doubleToChars : UInt64 → Option Bytes)
    (opts : SerializeOptions) (v : Value) : Prop :=
  ∃ text, Serializes doubleToChars opts v text ∧ ∃ w, parse toDouble text = .ok w ∧ Value.equal w v = true

theorem Value.Plain.notNumber {v : Value} (hv : v.Plain) (h : ¬v.IsInteger) : v.readBack.NotNumber := by
  cases hv with
  | int64 i => exact absurd trivial h
  | uint64 u => exact absurd trivial h
  | _ => trivial

theorem parse_of_isInteger {v : Value} (h : v.IsInteger) :
    parse toDouble (v.text opts doubleToChars) = .error .undefined := by
  cases v with
  | int64 i => exact parse_integer (toCharsInt_text i.toInt) (toInt_range i)
  | uint64 u =>
      have hlt := u.toNat_lt
      exact parse_integer (toCharsInt_text u.toNat) ⟨by omega, by omega⟩
  | _ => exact h.elim

/-- Whatever is written for a value is parsed to what is read back for it. -/
theorem parse_text {v : Value} (hv : v.Plain) (h : ¬v.IsInteger) :
    parse toDouble (v.text opts doubleToChars) = .ok v.readBack.value := by
  have htext := @text_readBack opts doubleToChars v hv
  have hdocument : DocumentText (v.text opts doubleToChars) v.readBack :=
    ⟨[], _, [], nofun, htext, nofun, by rw [List.nil_append, List.append_nil]⟩
  exact parses_to_meaning hdocument (hv.notNumber h)

/-- A value makes the round trip exactly when it is no number and all of its strings and keys are legible. -/
theorem round_trip_iff {v : Value} (hv : v.Plain) :
    RoundTrips toDouble doubleToChars opts v ↔ ¬v.IsInteger ∧ v.Legible := by
  have hserializes := @serializes_text opts doubleToChars v hv.noDouble
  constructor
  · rintro ⟨text, htext, w, hparse, hequal⟩
    obtain rfl := htext.unique hserializes
    have hroot : ¬v.IsInteger := fun h => by
      rw [parse_of_isInteger h] at hparse
      cases hparse
    rw [parse_text hv hroot] at hparse
    obtain rfl := Except.ok.inj hparse
    exact ⟨hroot, (equal_readBack hv).1.1 hequal⟩
  · rintro ⟨hroot, hlegible⟩
    exact ⟨_, hserializes, _, parse_text hv hroot, (equal_readBack hv).1.2 hlegible⟩

theorem round_trip_solidus :
    RoundTrips (fun _ _ => .error .numberTooLarge) (fun _ => none) { escapeSolidus := true }
      (.object [(utf8 ['a', '/'], .array [.int64 (-1), .null]), (utf8 ['\x10'], .string (utf8 ['é', '"']))]) := by
  have harray : (Value.array [.int64 (-1), .null]).Plain := by
    refine .array fun v hv => ?_
    rcases List.mem_cons.1 hv with rfl | hv
    · exact .int64 (-1)
    · obtain rfl := List.mem_singleton.1 hv
      exact .null
  refine (round_trip_iff (.object ?_ (by decide) ?_)).2 ⟨id, by decide⟩
  · rintro kv (_ | ⟨_, _ | ⟨_, hkv⟩⟩)
    · exact ⟨_, rfl⟩
    · exact ⟨_, rfl⟩
    · cases hkv
  · rintro kv (_ | ⟨_, _ | ⟨_, hkv⟩⟩)
    · exact harray
    · exact .string _
    · cases hkv

/-- The control character 1 is written with the digits of 16. -/
theorem control_character_lost :
    ¬(∀ toDouble doubleToChars opts (v : Value), v.Plain → RoundTrips toDouble doubleToChars opts v) := by
  intro h
  obtain ⟨text, htext, w, hparse, hequal⟩ :=
    h (fun _ _ => .error .numberTooLarge) (fun _ => none) {} (.string [0x01]) (.string ['\x01'])
  obtain rfl := htext.unique (serializes_text trivial)
  have hlost : parse (fun _ _ => .error .numberTooLarge) ((Value.string [0x01]).text {} fun _ => none) =
      .ok (.string [0x10]) := rfl
  rw [hlost] at hparse
  obtain rfl := Except.ok.inj hparse
  simp [Value.equal] at hequal

end Rad.Json
