import Rad.Dns.Lemmas.Message
import Rad.Dns.Lemmas.Name

/-!
# Names and messages
-/

namespace Rad.Dns

/-! ## Name decompression

A name is parsed within bounds unless its pointers go around, or it has more than 255 octets in parts of which each is
accepted.
-/

/-- The parser ends, and a name that it accepts is what the message spells there, with labels of 1 to 63 octets and at
most 255 octets in wire form; the count that it gives is that of the bytes that the name occupies. -/
def NameBounded (whole : Bytes) (input : Buffer) (out : Bytes) : Prop :=
  (∃ depth r, parseDomainName whole depth input out = some r) ∧
    ∀ depth r, parseDomainName whole depth input out = some r → r.ec = none →
      ∃ ls, Spells whole LabelsPart input ls r.count ∧ r.out = popDot (out ++ labelsText ls) ∧
        (∀ l ∈ ls, 1 ≤ l.length ∧ l.length ≤ 63) ∧ (labelsWire ls).length + 1 ≤ 255

theorem Spells.labels_length {whole : Bytes} {b : Buffer} {ls : List Bytes} {n : Nat}
    (h : Spells whole LabelsPart b ls n) : ∀ l ∈ ls, 1 ≤ l.length ∧ l.length ≤ 63 := by
  induction h with
  | root _ hpart => exact hpart
  | pointer _ hpart _ ih => exact fun l hl => (List.mem_append.1 hl).elim (hpart l) (ih l)

theorem Spells.labelsPart {whole : Bytes} {b : Buffer} {ls : List Bytes} {n : Nat}
    (h : Spells whole CheckedPart b ls n) : Spells whole LabelsPart b ls n :=
  h.mono fun _ _ _ hpart => hpart.labels

/-- When a name is parsed within the bounds. -/
theorem parseDomainName_bounded_iff {whole : Bytes} {input : Buffer} (hwhole : whole.length ≤ 65535)
    (hin : input.In whole) (out : Bytes) :
    NameBounded whole input out ↔
      ¬Circular whole input ∧ ∀ ls n, Spells whole CheckedPart input ls n → (labelsWire ls).length + 1 ≤ 255 := by
  rw [NameBounded, exists_parse_iff hwhole hin out]
  refine and_congr_right fun _ => ?_
  constructor
  · intro h ls n hspells
    obtain ⟨depth, hparse⟩ := parse_of_spells hwhole hin hspells out
    obtain ⟨ls', hspells', -, -, hlen⟩ := h depth _ hparse rfl
    obtain ⟨rfl, -⟩ := hspells.labelsPart.unique hspells'
    exact hlen
  · intro h depth r hparse hok
    obtain ⟨ls, hspells, hout⟩ := spells_of_parse hwhole hin hparse hok
    exact ⟨ls, hspells.labelsPart, hout, hspells.labelsPart.labels_length, h ls _ hspells⟩

/-- A header and a pointer to itself. -/
def selfPointer : Bytes := List.replicate 12 0 ++ [0xc0, 0x0c]

theorem circular_selfPointer : Circular selfPointer ⟨12, [0xc0, 0x0c]⟩ := by
  have hpoints : PointsTo selfPointer ⟨12, [0xc0, 0x0c]⟩ ⟨12, [0xc0, 0x0c]⟩ :=
    ⟨⟨List.prefix_refl _, by decide⟩, [], ⟨0xc0, 0x0c, [], rfl, rfl, by decide, rfl⟩, trivial, by
      rintro _ ⟨⟩
      decide⟩
  exact ⟨_, .refl, .single hpoints⟩

/-- A pointer to itself is followed without an end. -/
theorem parseDomainName_selfPointer :
    ¬∀ whole input out, whole.length ≤ 65535 → input.In whole → NameBounded whole input out := by
  intro h
  have hwhole : selfPointer.length ≤ 65535 := by decide
  have hin : (⟨12, [0xc0, 0x0c]⟩ : Buffer).In selfPointer := ⟨List.prefix_refl _, by decide⟩
  exact (exists_parse_iff hwhole hin []).1 (h _ _ [] hwhole hin).1 circular_selfPointer

theorem parseDomainName_bounded_iff_selfPointer : ¬NameBounded selfPointer ⟨12, [0xc0, 0x0c]⟩ [] := fun h =>
  ((parseDomainName_bounded_iff (by decide) ⟨List.prefix_refl _, by decide⟩ []).1 h).1 circular_selfPointer

/-! ## Messages are consumed exactly

A message that is parsed without an error is a header, the questions and the three sections of records that the header
counts, one item behind the other up to the end.
-/

/-- The calls that are made for a message: one for each item that the header counts, in the order of the sections. -/
structure MessageLayout (input : Bytes) (calls : List Call) where
  questions : List Call
  answers : List Call
  authority : List Call
  additional : List Call
  answersPos : Nat
  authorityPos : Nat
  additionalPos : Nat
  calls_eq : calls = .header (decodeHeader (input.take 12)) :: (questions ++ answers ++ authority ++ additional)
  questions_count : questions.length = (decodeHeader (input.take 12)).questions
  answers_count : answers.length = (decodeHeader (input.take 12)).answers
  authority_count : authority.length = (decodeHeader (input.take 12)).nameServers
  additional_count : additional.length = (decodeHeader (input.take 12)).additionalRecords
  questions_layout : Layout (QuestionAt input) 12 questions answersPos
  answers_layout : Layout (RecordAt input .answer) answersPos answers authorityPos
  authority_layout : Layout (RecordAt input .authority) authorityPos authority additionalPos
  additional_layout : Layout (RecordAt input .additional) additionalPos additional input.length

/-- What is parsed without an error, for a handler that never stops, is consumed exactly. -/
theorem parseDnsMessage_exact {handler : Handler} (hall : ∀ calls call, handler calls call = true) {depth : Nat}
    {input : Bytes} {r : Result} (h : parseDnsMessage handler depth input = some r) (hok : r.ec = none) :
    r.count = input.length ∧ Nonempty (MessageLayout input r.calls) := by
  rw [parseDnsMessage] at h
  simp only [hall, Bool.not_true, Bool.false_eq_true, ↓reduceIte] at h
  split at h
  · cases h
    cases hok
  rename_i hsize
  have hwhole : input.length ≤ 65535 := by omega
  have hheader : 12 ≤ input.length := by omega
  obtain ⟨⟨rest, ec, callsQ⟩, hq, h⟩ := Option.bind_eq_some_iff.1 h
  cases ec with
  | some e => cases h; cases hok
  | none =>
  obtain ⟨pos, qs, rfl, hpos, rfl, hqs, hquestions⟩ := parseQuestions_layout hall hwhole hheader hq
  simp only [Option.isSome_none, Bool.false_eq_true, ↓reduceIte] at h
  obtain ⟨⟨n, ec, callsA⟩, ha, h⟩ := Option.bind_eq_some_iff.1 h
  cases ec with
  | some e => cases h; cases hok
  | none =>
  obtain ⟨n, ans, rfl, hposA, rfl, hans, hanswers⟩ := parseResourceRecords_layout hall hwhole hpos ha rfl
  simp only [Option.isSome_none, Bool.false_eq_true, ↓reduceIte, Buffer.from_advance, Nat.zero_add] at h
  obtain ⟨⟨n', ec, callsN⟩, hn, h⟩ := Option.bind_eq_some_iff.1 h
  cases ec with
  | some e => cases h; cases hok
  | none =>
  obtain ⟨n', auth, rfl, hposN, rfl, hauth, hauthority⟩ := parseResourceRecords_layout hall hwhole hposA hn rfl
  simp only [Option.isSome_none, Bool.false_eq_true, ↓reduceIte, Nat.zero_add] at h
  obtain ⟨⟨n'', ec, callsR⟩, hr, rfl⟩ := Option.map_eq_some_iff.1 h
  simp only at hok ⊢
  split at hok
  · cases hok
  rename_i hempty
  obtain ⟨n'', add, rfl, hposR, rfl, hadd, hadditional⟩ := parseResourceRecords_layout hall hwhole hposN hr hok
  rw [Bool.not_eq_true', Bool.not_eq_false, List.isEmpty_iff, Nat.zero_add] at hempty
  have hend : pos + n + n' + n'' = input.length := by
    have := congrArg List.length hempty
    rw [Buffer.from_length, List.length_nil] at this
    omega
  rw [hend] at hadditional
  refine ⟨?_, ⟨⟨qs, ans, auth, add, pos, pos + n, pos + n + n', ?_, hqs, hans, hauth, hadd, hquestions, hanswers,
    hauthority, hadditional⟩⟩⟩
  · rw [Nat.zero_add, hempty]
    exact Nat.sub_zero _
  · simp only [List.append_assoc, List.cons_append, List.nil_append]

/-- A response with one question and one address. -/
def smallResponse : Bytes :=
  [0x12, 0x34, 0x81, 0x80, 0, 1, 0, 1, 0, 0, 0, 0, 1, 0x61, 0, 0, 1, 0, 1, 0xc0, 0x0c, 0, 1, 0, 1, 0, 0, 0, 60, 0, 4,
    127, 0, 0, 1]

theorem parseDnsMessage_exact_small :
    (35 = smallResponse.length ∧ Nonempty (MessageLayout smallResponse
      [.header (decodeHeader (smallResponse.take 12)), .question [0x61] ⟨1, 1⟩,
        .record .answer [0x61] ⟨1, 1, 60, 4⟩ (.ipv4 0x7f000001)])) := by
  have h : parseDnsMessage (fun _ _ => true) 3 smallResponse = some ⟨35, none,
      [.header (decodeHeader (smallResponse.take 12)), .question [0x61] ⟨1, 1⟩,
        .record .answer [0x61] ⟨1, 1, 60, 4⟩ (.ipv4 0x7f000001)]⟩ := by
    decide +kernel
  exact parseDnsMessage_exact (fun _ _ => rfl) h rfl

end Rad.Dns
