import Rad.Dns.Lemmas.Name
import Rad.Dns.Message

/-!
# What the parsers of a message consume

Each parser that returns without an error has made one call for each question and each record, and has consumed the
bytes that these occupy.
-/

namespace Rad.Dns

/-- The message from a position on. -/
def Buffer.from (whole : Bytes) (pos : Nat) : Buffer := ⟨pos, whole.drop pos⟩

theorem Buffer.from_in {whole : Bytes} {pos : Nat} (h : pos ≤ whole.length) : (Buffer.from whole pos).In whole :=
  ⟨List.prefix_refl _, h⟩

@[simp] theorem Buffer.from_advance (whole : Bytes) (pos n : Nat) :
    (Buffer.from whole pos).advance n = .from whole (pos + n) := by
  simp only [Buffer.from, Buffer.advance, List.drop_drop]

theorem Buffer.from_length {whole : Bytes} {pos : Nat} : (Buffer.from whole pos).data.length = whole.length - pos :=
  List.length_drop

theorem Buffer.subBuffer_in {whole : Bytes} {pos : Nat} (h : pos ≤ whole.length) (n : Nat) :
    ((Buffer.from whole pos).subBuffer n).In whole := ⟨List.take_prefix _ _, h⟩

/-! ## Layouts -/

/-- A question at `pos`, and where it ends. -/
def QuestionAt (whole : Bytes) (pos : Nat) (call : Call) (next : Nat) : Prop :=
  ∃ ls n, Spells whole LabelsPart (.from whole pos) ls n ∧
    call = .question (popDot (labelsText ls)) (decodeQuestion ((whole.drop (pos + n)).take 4)) ∧
    next = pos + n + 4 ∧ next ≤ whole.length

/-- A record at `pos`, and where it ends: its name, ten bytes and as many bytes of data as these say. -/
def RecordAt (whole : Bytes) (rtype : ResourceRecordType) (pos : Nat) (call : Call) (next : Nat) : Prop :=
  ∃ ls n rr data, Spells whole LabelsPart (.from whole pos) ls n ∧ rr = decodeRecord ((whole.drop (pos + n)).take 10) ∧
    call = .record rtype (popDot (labelsText ls)) rr data ∧ next = pos + n + 10 + rr.dataLength ∧ next ≤ whole.length

/-- Items one behind the other, each with the call that is made for it. -/
inductive Layout (item : Nat → Call → Nat → Prop) : Nat → List Call → Nat → Prop where
  | nil {pos : Nat} : Layout item pos [] pos
  | cons {pos mid next : Nat} {call : Call} {calls : List Call} (h : item pos call mid) (hrest : Layout item mid calls next) :
      Layout item pos (call :: calls) next

section

variable {handler : Handler} {whole : Bytes} {depth : Nat} {calls : List Call}

theorem Spells.count_le {p : Buffer → List Bytes → Option Nat → Prop} {b : Buffer} {ls : List Bytes} {n : Nat}
    (h : Spells whole p b ls n) : n ≤ b.data.length := by
  cases h with
  | root hdata _ =>
      rw [hdata, List.length_append, List.length_cons]
      omega
  | pointer hpointer _ _ =>
      obtain ⟨byte1, byte2, rest, hdata, -⟩ := hpointer
      rw [hdata, List.length_append, List.length_cons, List.length_cons]
      omega

/-- What a parsed name is. -/
theorem spells_of_parseDomainName (hwhole : whole.length ≤ 65535) {b : Buffer} {r : NameResult} (hin : b.In whole)
    (h : parseDomainName whole depth b [] = some r) (hok : r.ec = none) :
    ∃ ls, Spells whole LabelsPart b ls r.count ∧ r.out = popDot (labelsText ls) := by
  obtain ⟨ls, hspells, hout⟩ := spells_of_parse hwhole hin h hok
  exact ⟨ls, hspells.mono fun _ _ _ hpart => hpart.labels, hout⟩

variable (hall : ∀ calls call, handler calls call = true)

include hall in
theorem emit_ok (call : Call) (stopped n : Nat) : emit handler calls call stopped n = ⟨n, none, calls ++ [call]⟩ :=
  if_pos (hall calls call)

/-! ## Record data -/

/-- One call has been made for the record, and `n` bytes are consumed. -/
def Emitted (rtype : ResourceRecordType) (name : Bytes) (rr : ResourceRecord) (calls : List Call) (n : Nat) (r : Result) :
    Prop :=
  r.count = n ∧ ∃ data, r.calls = calls ++ [.record rtype name rr data]

variable {rtype : ResourceRecordType} {name : Bytes} {rr : ResourceRecord} {rdata : Buffer} {r : Result}

include hall in
theorem emitted (data : RecordData) (stopped n : Nat) :
    Emitted rtype name rr calls n (emit handler calls (.record rtype name rr data) stopped n) := by
  rw [emit_ok hall]
  exact ⟨rfl, data, rfl⟩

include hall in
theorem parseIpv4Rdata_emitted (hok : (parseIpv4Rdata handler rtype name rr calls rdata).ec = none) :
    Emitted rtype name rr calls rr.dataLength (parseIpv4Rdata handler rtype name rr calls rdata) := by
  rw [parseIpv4Rdata] at hok ⊢
  split at hok
  · cases hok
  · rename_i hlen
    rw [if_neg hlen, Decidable.not_not.1 hlen]
    exact emitted hall _ _ _

include hall in
theorem parseIpv6Rdata_emitted (hok : (parseIpv6Rdata handler rtype name rr calls rdata).ec = none) :
    Emitted rtype name rr calls rr.dataLength (parseIpv6Rdata handler rtype name rr calls rdata) := by
  rw [parseIpv6Rdata] at hok ⊢
  split at hok
  · cases hok
  · rename_i hlen
    rw [if_neg hlen, Decidable.not_not.1 hlen]
    exact emitted hall _ _ _

theorem readTexts_count {parsedN : Nat} {texts texts' : List Bytes} {t : Bytes} {n : Nat}
    (h : readTexts parsedN texts t = (n, some texts')) : n = parsedN + t.length := by
  induction parsedN, texts, t using readTexts.induct with
  | case1 parsedN texts =>
      rw [readTexts] at h
      cases h
      rfl
  | case2 parsedN texts b t hnone =>
      rw [readTexts] at h
      split at h
      · cases h
      · rename_i hsome
        rw [hnone] at hsome
        cases hsome
  | case3 parsedN texts b t n' text hsome ih =>
      rw [readTexts] at h
      split at h
      · cases h
      · rename_i n'' text' hsome'
        rw [hsome] at hsome'
        cases hsome'
        have hcount := parseCharactersString_count hsome
        rw [ih h, List.length_drop]
        omega

include hall in
theorem parseTextsRdata_emitted (hok : (parseTextsRdata handler rtype name rr calls rdata).ec = none) :
    Emitted rtype name rr calls rdata.data.length (parseTextsRdata handler rtype name rr calls rdata) := by
  rw [parseTextsRdata] at hok ⊢
  split at hok
  · cases hok
  rename_i hempty
  rw [if_neg hempty]
  split
  · rename_i parsedN htexts
    rw [htexts] at hok
    cases hok
  · rename_i parsedN texts htexts
    have hcount := readTexts_count htexts
    rw [Nat.zero_add] at hcount
    rw [← hcount]
    exact emitted hall _ _ _

include hall in
theorem parseHostInfoRdata_emitted (hok : (parseHostInfoRdata handler rtype name rr calls rdata).ec = none) :
    Emitted rtype name rr calls rdata.data.length (parseHostInfoRdata handler rtype name rr calls rdata) := by
  rw [parseHostInfoRdata] at hok ⊢
  split at hok
  · cases hok
  rename_i hsize
  rw [if_neg hsize]
  cases hcpu : parseCharactersString rdata.data with
  | none => rw [hcpu] at hok; cases hok
  | some cpu =>
      obtain ⟨n, cpu⟩ := cpu
      simp only [hcpu] at hok ⊢
      cases hos : parseCharactersString (rdata.data.drop n) with
      | none => rw [hos] at hok; cases hok
      | some os =>
          obtain ⟨n', os⟩ := os
          simp only [hos] at hok ⊢
          split at hok
          · cases hok
          · rename_i hempty
            rw [Bool.not_eq_true', Bool.not_eq_false, List.isEmpty_iff] at hempty
            simp only [hempty, List.isEmpty_nil, Bool.not_true, Bool.false_eq_true, ↓reduceIte, List.length_nil,
              Nat.sub_zero]
            exact emitted hall _ _ _

include hall in
theorem parseMailExchangeRdata_emitted (h : parseMailExchangeRdata handler whole depth rtype name rr calls rdata = some r)
    (hok : r.ec = none) : Emitted rtype name rr calls rdata.data.length r := by
  rw [parseMailExchangeRdata] at h
  split at h
  · cases h
    cases hok
  obtain ⟨⟨n, out, ec⟩, -, rfl⟩ := Option.map_eq_some_iff.1 h
  cases ec with
  | some e => cases hok
  | none =>
      simp only [Option.isSome_none, Bool.false_eq_true, ↓reduceIte] at hok ⊢
      split at hok
      · cases hok
      · rename_i hempty
        rw [Bool.not_eq_true', Bool.not_eq_false, List.isEmpty_iff] at hempty
        simp only [hempty, List.isEmpty_nil, Bool.not_true, Bool.false_eq_true, ↓reduceIte, List.length_nil,
          Nat.sub_zero]
        exact emitted hall _ _ _

include hall in
theorem parseMailInfoRdata_emitted (h : parseMailInfoRdata handler whole depth rtype name rr calls rdata = some r)
    (hok : r.ec = none) : Emitted rtype name rr calls rdata.data.length r := by
  rw [parseMailInfoRdata] at h
  split at h
  · cases h
    cases hok
  obtain ⟨⟨n, out, ec⟩, -, h⟩ := Option.bind_eq_some_iff.1 h
  cases ec with
  | some e => cases h; cases hok
  | none =>
      simp only [Option.isSome_none, Bool.false_eq_true, ↓reduceIte] at h
      obtain ⟨⟨n', out', ec'⟩, -, rfl⟩ := Option.map_eq_some_iff.1 h
      cases ec' with
      | some e => cases hok
      | none =>
          simp only [Option.isSome_none, Bool.false_eq_true, ↓reduceIte] at hok ⊢
          split at hok
          · cases hok
          · rename_i hempty
            rw [Bool.not_eq_true', Bool.not_eq_false, List.isEmpty_iff] at hempty
            simp only [hempty, List.isEmpty_nil, Bool.not_true, Bool.false_eq_true, ↓reduceIte, List.length_nil,
              Nat.sub_zero]
            exact emitted hall _ _ _

include hall in
theorem parseStartOfAuthorityRdata_emitted
    (h : parseStartOfAuthorityRdata handler whole depth rtype name rr calls rdata = some r) (hok : r.ec = none) :
    Emitted rtype name rr calls rdata.data.length r := by
  rw [parseStartOfAuthorityRdata] at h
  split at h
  · cases h
    cases hok
  obtain ⟨⟨n, out, ec⟩, -, h⟩ := Option.bind_eq_some_iff.1 h
  cases ec with
  | some e => cases h; cases hok
  | none =>
      simp only [Option.isSome_none, Bool.false_eq_true, ↓reduceIte] at h
      obtain ⟨⟨n', out', ec'⟩, -, rfl⟩ := Option.map_eq_some_iff.1 h
      cases ec' with
      | some e => cases hok
      | none =>
          simp only [Option.isSome_none, Bool.false_eq_true, ↓reduceIte] at hok ⊢
          split at hok
          · cases hok
          · rename_i hsize
            have hrest : (((rdata.advance n).advance n').advance 20).data.length = 0 := by
              rw [Buffer.advance, List.length_drop]
              omega
            rw [if_neg hsize, hrest, Nat.sub_zero]
            exact emitted hall _ _ _

include hall in
theorem parseDomainNameRdata_emitted (hwhole : whole.length ≤ 65535) (hin : rdata.In whole)
    (h : parseDomainNameRdata handler whole depth rtype name rr calls rdata = some r) (hok : r.ec = none) :
    Emitted rtype name rr calls rdata.data.length r := by
  rw [parseDomainNameRdata] at h
  obtain ⟨⟨n, out, ec⟩, hname, rfl⟩ := Option.map_eq_some_iff.1 h
  cases ec with
  | some e => cases hok
  | none =>
      obtain ⟨ls, hspells, -⟩ := spells_of_parseDomainName hwhole hin hname rfl
      have hle := hspells.count_le
      simp only [Option.isSome_none, Bool.false_eq_true, ↓reduceIte] at hok hle ⊢
      split at hok
      · cases hok
      · rename_i hempty
        have hlen : n = rdata.data.length := by
          rw [Bool.not_eq_true', Bool.not_eq_false, List.isEmpty_iff, Buffer.advance, List.drop_eq_nil_iff] at hempty
          omega
        rw [if_neg hempty, ← hlen]
        exact emitted hall _ _ _

include hall in
/-- Record data that is parsed without an error is consumed as a whole. -/
theorem parseRdata_emitted (hwhole : whole.length ≤ 65535) (hin : rdata.In whole) (hlen : rdata.data.length = rr.dataLength)
    (h : parseRdata handler whole depth rtype name rr calls rdata = some r) (hok : r.ec = none) :
    Emitted rtype name rr calls rr.dataLength r := by
  rw [parseRdata] at h
  split at h
  · cases h
    exact parseIpv4Rdata_emitted hall hok
  split at h
  · cases h
    exact parseIpv6Rdata_emitted hall hok
  rw [← hlen]
  split at h
  · exact parseStartOfAuthorityRdata_emitted hall h hok
  split at h
  · cases h
    exact parseHostInfoRdata_emitted hall hok
  split at h
  · cases h
    exact parseTextsRdata_emitted hall hok
  split at h
  · exact parseMailInfoRdata_emitted hall h hok
  split at h
  · exact parseMailExchangeRdata_emitted hall h hok
  split at h
  · exact parseDomainNameRdata_emitted hall hwhole hin h hok
  · cases h
    rw [hlen]
    exact emitted hall _ _ _

/-! ## Questions and records -/

variable {pos : Nat}

include hall in
theorem parseQuestion_layout (hwhole : whole.length ≤ 65535) (hpos : pos ≤ whole.length)
    (h : parseQuestion handler whole depth (.from whole pos) calls = some r) (hok : r.ec = none) :
    ∃ call, r.calls = calls ++ [call] ∧ QuestionAt whole pos call (pos + r.count) := by
  rw [parseQuestion] at h
  split at h
  · cases h
    cases hok
  obtain ⟨⟨n, out, ec⟩, hname, rfl⟩ := Option.map_eq_some_iff.1 h
  cases ec with
  | some e => cases hok
  | none =>
      obtain ⟨ls, hspells, hout⟩ := spells_of_parseDomainName hwhole (Buffer.from_in hpos) hname rfl
      have hle := hspells.count_le
      simp only [Option.isSome_none, Bool.false_eq_true, false_or, Buffer.from_advance, Buffer.from_length] at hok hle hout ⊢
      have hne : n ≠ 0 := Nat.pos_iff_ne_zero.1 hspells.pos
      rw [if_neg hne] at hok ⊢
      split at hok
      · cases hok
      · rename_i hsize
        rw [if_neg hsize, emit_ok hall]
        have hend : pos + (n + 4) ≤ whole.length := by omega
        exact ⟨_, rfl, ls, n, hspells, by rw [hout]; rfl, by rw [Nat.add_assoc], hend⟩

include hall in
theorem parseResourceRecord_layout (hwhole : whole.length ≤ 65535) (hpos : pos ≤ whole.length)
    (h : parseResourceRecord handler whole depth rtype (.from whole pos) calls = some r) (hok : r.ec = none) :
    ∃ call, r.calls = calls ++ [call] ∧ RecordAt whole rtype pos call (pos + r.count) := by
  rw [parseResourceRecord] at h
  split at h
  · cases h
    cases hok
  obtain ⟨⟨n, out, ec⟩, hname, h⟩ := Option.bind_eq_some_iff.1 h
  cases ec with
  | some e => cases h; cases hok
  | none =>
      obtain ⟨ls, hspells, hout⟩ := spells_of_parseDomainName hwhole (Buffer.from_in hpos) hname rfl
      have hle := hspells.count_le
      simp only [Option.isSome_none, Bool.false_eq_true, ↓reduceIte, Buffer.from_advance, Buffer.from_length] at h hle hout
      split at h
      · cases h
        cases hok
      rename_i hfixed
      split at h
      · cases h
        cases hok
      rename_i hrdata
      obtain ⟨⟨n', ec', calls'⟩, hr', rfl⟩ := Option.map_eq_some_iff.1 h
      cases ec' with
      | some e => cases hok
      | none =>
          have hlen : ((Buffer.from whole (pos + n + 10)).subBuffer
              (decodeRecord ((Buffer.from whole (pos + n)).data.take 10)).dataLength).data.length =
                (decodeRecord ((Buffer.from whole (pos + n)).data.take 10)).dataLength := by
            rw [Buffer.subBuffer, List.length_take, Buffer.from_length]
            omega
          obtain ⟨hcount, data, hcalls⟩ := parseRdata_emitted hall hwhole (Buffer.subBuffer_in (by omega) _) hlen hr' rfl
          have hend : pos + (n + 10 + (decodeRecord ((Buffer.from whole (pos + n)).data.take 10)).dataLength) ≤
              whole.length := by omega
          simp only at hcount hcalls
          simp only [Option.isSome_none, Bool.false_eq_true, ↓reduceIte, hcount, hcalls]
          exact ⟨_, rfl, ls, n, _, data, hspells, rfl, by rw [hout]; rfl, by simp only [Nat.add_assoc]; rfl, hend⟩

include hall in
theorem parseQuestions_layout (hwhole : whole.length ≤ 65535) (hpos : pos ≤ whole.length) {questions : Nat}
    {rest : Buffer} {calls' : List Call}
    (h : parseQuestions handler whole depth questions (.from whole pos) calls = some (rest, none, calls')) :
    ∃ next cs, rest = .from whole next ∧ next ≤ whole.length ∧ calls' = calls ++ cs ∧ cs.length = questions ∧
      Layout (QuestionAt whole) pos cs next := by
  induction questions generalizing pos calls with
  | zero =>
      cases h
      exact ⟨pos, [], rfl, hpos, (List.append_nil _).symm, rfl, .nil⟩
  | succ questions ih =>
      rw [parseQuestions] at h
      obtain ⟨⟨n, ec, callsQ⟩, hr, h⟩ := Option.bind_eq_some_iff.1 h
      cases ec with
      | some e => cases h
      | none =>
          obtain ⟨call, hcall, hquestion⟩ := parseQuestion_layout hall hwhole hpos hr rfl
          simp only [Option.isSome_none, Bool.false_eq_true, ↓reduceIte, Buffer.from_advance] at h hcall hquestion
          obtain ⟨-, -, -, -, -, hle⟩ := id hquestion
          obtain ⟨next, cs, rfl, hnext, rfl, rfl, hlayout⟩ := ih hle h
          refine ⟨next, call :: cs, rfl, hnext, ?_, rfl, .cons hquestion hlayout⟩
          rw [hcall, List.append_assoc, List.singleton_append]

include hall in
theorem parseResourceRecords_layout (hwhole : whole.length ≤ 65535) (hpos : pos ≤ whole.length) {recordsCount parsedN : Nat}
    (h : parseResourceRecords handler whole depth rtype recordsCount (.from whole pos) parsedN calls = some r)
    (hok : r.ec = none) :
    ∃ n cs, r.count = parsedN + n ∧ pos + n ≤ whole.length ∧ r.calls = calls ++ cs ∧ cs.length = recordsCount ∧
      Layout (RecordAt whole rtype) pos cs (pos + n) := by
  induction recordsCount generalizing pos parsedN calls with
  | zero =>
      cases h
      exact ⟨0, [], rfl, hpos, (List.append_nil _).symm, rfl, .nil⟩
  | succ recordsCount ih =>
      rw [parseResourceRecords] at h
      obtain ⟨⟨n, ec, callsR⟩, hr, h⟩ := Option.bind_eq_some_iff.1 h
      cases ec with
      | some e =>
          cases h
          cases hok
      | none =>
          obtain ⟨call, hcall, hrecord⟩ := parseResourceRecord_layout hall hwhole hpos hr rfl
          simp only [Option.isSome_none, Bool.false_eq_true, ↓reduceIte, Buffer.from_advance] at h hcall hrecord
          obtain ⟨-, -, -, -, -, -, -, -, hle⟩ := id hrecord
          obtain ⟨n', cs, hcount, hnext, hcalls, rfl, hlayout⟩ := ih hle h
          rw [Nat.add_assoc] at hcount hnext hlayout
          refine ⟨n + n', call :: cs, hcount, hnext, ?_, rfl, .cons hrecord hlayout⟩
          rw [hcalls, hcall, List.append_assoc, List.singleton_append]

end

end Rad.Dns
